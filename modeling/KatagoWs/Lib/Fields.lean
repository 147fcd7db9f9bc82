import Mathlib.Data.List.Perm.Basic

/-!
# Records read by the names of their fields

A record arrives as a list of named values, in any order and with names nobody asked for.  A
field is read by its name, and a name that occurs twice is refused.

* `field`          the value of a name, if it is there;
* `field_perm`     the order of the fields does not matter;
* `field_filter`   and neither does a name that is not read;
* `field_same`     so a record is read alike wherever its known fields are the same;
* `field_of_mem`, `field_absent`   what is read of a record without repetitions.
-/

namespace Lib
variable {V : Type*}

/-- the values under `key` -/
def occurrences (key : String) (fs : List (String × V)) : List V :=
  (fs.filter fun f => f.1 == key).map Prod.snd

/-- the value under `key`; `none` when the name occurs twice -/
def field (key : String) (fs : List (String × V)) : Option (Option V) :=
  match occurrences key fs with
  | [] => some none
  | [v] => some (some v)
  | _ => none

theorem occurrences_perm {fs gs : List (String × V)} (h : fs.Perm gs) (key : String) :
    (occurrences key fs).Perm (occurrences key gs) := (h.filter _).map _

theorem field_perm {fs gs : List (String × V)} (h : fs.Perm gs) (key : String) :
    field key fs = field key gs := by
  have hp := occurrences_perm h key
  unfold field
  match hf : occurrences key fs with
  | [] =>
    rw [hf] at hp
    rw [List.nil_perm.mp hp]
  | [v] =>
    rw [hf] at hp
    rw [List.singleton_perm.mp hp]
  | v :: w :: vs =>
    have hlen := hp.length_eq
    rw [hf] at hlen
    match hg : occurrences key gs with
    | [] =>
      rw [hg] at hlen
      simp at hlen
    | [u] =>
      rw [hg] at hlen
      simp at hlen
    | _ :: _ :: _ => rfl

theorem field_filter {known : List String} {key : String} (h : key ∈ known)
    (fs : List (String × V)) :
    field key (fs.filter fun f => known.contains f.1) = field key fs := by
  have hocc : occurrences key (fs.filter fun f => known.contains f.1) = occurrences key fs := by
    unfold occurrences
    rw [List.filter_filter]
    refine congrArg _ (List.filter_congr fun f _ => ?_)
    by_cases hf : f.1 = key
    · subst hf
      rw [List.contains_iff_mem.mpr h, Bool.and_true]
    · rw [beq_false_of_ne hf, Bool.false_and]
  unfold field
  rw [hocc]

/-- **A record is what its known fields are**: names that are not read and the order of the rest
change nothing. -/
theorem field_same {known : List String} {fs gs : List (String × V)}
    (h : (fs.filter fun f => known.contains f.1).Perm (gs.filter fun f => known.contains f.1))
    {key : String} (hk : key ∈ known) : field key fs = field key gs := by
  rw [← field_filter hk fs, field_perm h key, field_filter hk gs]

theorem field_of_mem {key : String} {v : V} {fs : List (String × V)}
    (hnd : (fs.map Prod.fst).Nodup) (h : (key, v) ∈ fs) : field key fs = some (some v) := by
  have hocc : occurrences key fs = [v] := by
    unfold occurrences
    obtain ⟨as, bs, rfl⟩ := List.append_of_mem h
    rw [List.map_append, List.map_cons, List.nodup_append, List.nodup_cons] at hnd
    obtain ⟨_, ⟨hbs, _⟩, has⟩ := hnd
    have hl : as.filter (fun f => f.1 == key) = [] :=
      List.filter_eq_nil_iff.mpr fun f hf he =>
        has f.1 (List.mem_map_of_mem hf) key List.mem_cons_self (beq_iff_eq.mp he)
    have hr : bs.filter (fun f => f.1 == key) = [] :=
      List.filter_eq_nil_iff.mpr fun f hf he =>
        hbs (List.mem_map.mpr ⟨f, hf, beq_iff_eq.mp he⟩)
    rw [List.filter_append, hl, List.filter_cons_of_pos (by exact beq_self_eq_true key), hr]
    rfl
  unfold field
  rw [hocc]

theorem field_absent {key : String} {fs : List (String × V)} (h : key ∉ fs.map Prod.fst) :
    field key fs = some none := by
  have hocc : occurrences key fs = [] := by
    unfold occurrences
    rw [List.filter_eq_nil_iff.mpr fun f hf he =>
      h (List.mem_map.mpr ⟨f, hf, beq_iff_eq.mp he⟩)]
    rfl
  unfold field
  rw [hocc]

end Lib
