import Mathlib.Algebra.Order.Ring.Canonical
import Mathlib.Data.List.MinMax
import Mathlib.Data.List.Sort

/-!
# The first item within a fraction of the best

Items are in order of preference and carry a score.  The first one whose score is at least the
fraction `keep` of every other's is chosen: a near-tie goes to the preferred item.

* `topOf`             the best score, `0` when there is none;
* `topOf_mul_le`      a bound on the fraction of the best is one on the fraction of each;
* `firstWithin`       the choice; a nonempty list has one (`firstWithin_isSome`), and relabelled
                     items the relabelled one (`firstWithin_map`);
* `firstWithin_drop`  an item below the fraction of an earlier one can be left out;
* `find?_insertionSort`  the first of a kind in a sorted list is the least, of several the first.
-/

namespace Lib

theorem foldl_max_le_iff {α K : Type*} [LinearOrder K] (f : α → K) {l : List α} {a x : K} :
    l.foldl (fun x b => max x (f b)) a ≤ x ↔ a ≤ x ∧ ∀ b ∈ l, f b ≤ x := by
  induction l generalizing a with
  | nil => simp
  | cons b l ih =>
    rw [List.foldl_cons, ih, max_le_iff, List.forall_mem_cons, and_assoc]

section
variable {α K : Type*} [CommSemiring K] [LinearOrder K]

def topOf (score : α → K) (l : List α) : K := (l.map score).foldl max 0

section
variable [CanonicallyOrderedAdd K]

theorem topOf_le {score : α → K} {l : List α} {x : K} : topOf score l ≤ x ↔
    ∀ a ∈ l, score a ≤ x := by
  rw [topOf, List.foldl_map, foldl_max_le_iff, and_iff_right zero_le]

theorem le_topOf {score : α → K} {l : List α} {a : α} (h : a ∈ l) : score a ≤ topOf score l :=
  topOf_le.mp le_rfl a h

theorem topOf_mem {score : α → K} {l : List α} (h : 0 < topOf score l) :
    ∃ a ∈ l, score a = topOf score l := by
  cases hm : l.argmax score with
  | none =>
    rw [List.argmax_eq_none.mp hm] at h
    exact absurd h (lt_irrefl 0)
  | some m =>
    have hmem : m ∈ l := List.argmax_mem hm
    have hle : topOf score l ≤ score m := topOf_le.mpr fun a ha => List.le_of_mem_argmax ha hm
    exact ⟨m, hmem, le_antisymm (le_topOf hmem) hle⟩

theorem topOf_mul_le [IsOrderedRing K] {score : α → K} {l : List α} {keep x : K} :
    topOf score l * keep ≤ x ↔ ∀ a ∈ l, score a * keep ≤ x := by
  constructor
  · intro h a ha
    exact le_trans (mul_le_mul_left (le_topOf ha) keep) h
  · intro h
    rcases eq_or_lt_of_le (zero_le (a := topOf score l)) with h0 | h0
    · rw [← h0, zero_mul]
      exact zero_le
    · obtain ⟨a, ha, he⟩ := topOf_mem h0
      rw [← he]
      exact h a ha

end

/-! ## the choice -/

variable (keep : K) (score : α → K)

/-- at least the fraction of every item's score -/
def Within (l : List α) (a : α) : Prop := ∀ b ∈ l, score b * keep ≤ score a

instance (l : List α) : DecidablePred (Within keep score l) := fun a =>
  inferInstanceAs (Decidable (∀ b ∈ l, score b * keep ≤ score a))

/-- the first item within the fraction of the best -/
def firstWithin (l : List α) : Option α := l.find? fun a => decide (Within keep score l a)

theorem firstWithin_map {β : Type*} (f : β → α) (l : List β) :
    firstWithin keep score (l.map f) = (firstWithin keep (fun b => score (f b)) l).map f := by
  rw [firstWithin, firstWithin, List.find?_map]
  have hp : (fun a => decide (Within keep score (l.map f) a)) ∘ f
      = fun b => decide (Within keep (fun b => score (f b)) l b) :=
    funext fun b => decide_eq_decide.mpr List.forall_mem_map
  rw [hp]

variable [IsOrderedRing K] [CanonicallyOrderedAdd K]

theorem firstWithin_isSome {l : List α} (hk : keep ≤ 1) (hl : l ≠ []) :
    (firstWithin keep score l).isSome = true := by
  cases hm : l.argmax score with
  | none => exact absurd (List.argmax_eq_none.mp hm) hl
  | some m =>
    rw [firstWithin, List.find?_isSome]
    refine ⟨m, List.argmax_mem hm, decide_eq_true fun b hb => ?_⟩
    exact le_trans (mul_le_of_le_one_right zero_le hk) (List.le_of_mem_argmax hb hm)

/-- an item below the fraction of another asks for less than that one -/
theorem within_drop {l₁ l₂ : List α} {c b : α} (hk : keep ≤ 1) (hb : b ∈ l₁)
    (hc : score c < score b * keep) (a : α) :
    Within keep score (l₁ ++ c :: l₂) a ↔ Within keep score (l₁ ++ l₂) a := by
  constructor
  · intro h x hx
    rcases List.mem_append.mp hx with hx | hx
    · exact h x (List.mem_append_left _ hx)
    · exact h x (List.mem_append_right _ (List.mem_cons_of_mem c hx))
  · intro h x hx
    rcases List.mem_append.mp hx with hx | hx
    · exact h x (List.mem_append_left _ hx)
    · rcases List.mem_cons.mp hx with rfl | hx
      · calc score x * keep ≤ score x := mul_le_of_le_one_right zero_le hk
          _ ≤ score b * keep := le_of_lt hc
          _ ≤ score a := h b (List.mem_append_left _ hb)
      · exact h x (List.mem_append_right _ hx)

/-- **A loser does not matter**: an item below the fraction of an earlier one is never chosen,
and the choice is the same without it. -/
theorem firstWithin_drop {l₁ l₂ : List α} {c b : α} (hk : keep ≤ 1) (hb : b ∈ l₁)
    (hc : score c < score b * keep) :
    firstWithin keep score (l₁ ++ c :: l₂) = firstWithin keep score (l₁ ++ l₂) := by
  have hp : (fun a => decide (Within keep score (l₁ ++ c :: l₂) a))
      = fun a => decide (Within keep score (l₁ ++ l₂) a) := by
    funext a
    exact decide_eq_decide.mpr (within_drop keep score hk hb hc a)
  have hn : ¬ Within keep score (l₁ ++ l₂) c := fun h =>
    absurd (h b (List.mem_append_left _ hb)) (not_le_of_gt hc)
  rw [firstWithin, firstWithin, hp, List.find?_append, List.find?_append, List.find?_cons,
    decide_eq_false hn]

end

/-! ## the first of a sorted list -/

section
variable {α K : Type*} [LinearOrder K] (f : α → K)

/-- an item put into a sorted list is the first of its kind when no other of the kind is less -/
theorem find?_orderedInsert (p : α → Bool) (a : α) {l : List α}
    (hl : l.Pairwise fun a b => f a ≤ f b) :
    (l.orderedInsert (fun a b => f a ≤ f b) a).find? p =
      if p a then some ((l.find? p).elim a fun b => if f b < f a then b else a)
      else l.find? p := by
  induction l with
  | nil => cases hp : p a <;> simp [hp]
  | cons b l ih =>
    obtain ⟨hb, hl⟩ := List.pairwise_cons.mp hl
    rw [List.orderedInsert_cons]
    by_cases hab : f a ≤ f b
    · rw [if_pos hab, List.find?_cons]
      cases hp : p a with
      | false => rfl
      | true =>
        rw [if_pos rfl]
        cases hfind : (b :: l).find? p with
        | none => rfl
        | some c =>
          have hac : f a ≤ f c := by
            rcases List.mem_cons.mp (List.mem_of_find?_eq_some hfind) with rfl | hc
            · exact hab
            · exact hab.trans (hb c hc)
          rw [Option.elim_some, if_neg (not_lt.mpr hac)]
    · rw [if_neg hab, List.find?_cons, List.find?_cons, ih hl]
      cases p b with
      | false => rfl
      | true => rw [Option.elim_some, if_pos (not_le.mp hab), ite_self]

/-- **The first of a kind** in a sorted list is the least one, of several the first. -/
theorem find?_insertionSort (p : α → Bool) (l : List α) :
    (l.insertionSort fun a b => f a ≤ f b).find? p = (l.filter p).argmin f := by
  induction l with
  | nil => rfl
  | cons a l ih =>
    rw [List.insertionSort_cons, find?_orderedInsert f p a (List.pairwise_insertionSort _ _), ih,
      List.filter_cons]
    cases p a with
    | false => rfl
    | true =>
      rw [if_pos rfl, if_pos rfl, List.argmin_cons]
      cases (l.filter p).argmin f with
      | none => rfl
      | some b => exact apply_ite some (f b < f a) b a

theorem find?_take {p : α → Bool} {l : List α} {n : Nat} {a : α} (h : (l.take n).find? p = some a) :
    l.find? p = some a := by
  rw [← List.take_append_drop n l, List.find?_append, h]
  rfl

end
end Lib
