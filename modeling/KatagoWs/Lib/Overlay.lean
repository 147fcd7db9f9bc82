import Mathlib.Data.List.Nodup
import Mathlib.Data.List.Perm.Basic
import Mathlib.Logic.Function.Basic
import Mathlib.Order.Lattice

/-!
# What a list of writes leaves

A later write to a key replaces an earlier one: `overlay` is the map that is left.  With no key
written twice the order of the writes does not matter.

* `overlay_append`   the writes of the second part replace those of the first;
* `overlay_nodup`    with distinct keys the map is the list;
* `overlay_perm`     with distinct keys every order leaves the same map;
* `overlay_filterMap`   the items of a list as writes: the last that writes to a key counts;
* `OrdMap`           a map kept in the order of its keys, which its lookups determine
                     (`OrdMap.ext_get?`), and so do the writes (`OrdMap.get?_extend`);
* `SeqMap`           a map kept in the order of its first writes, what it holds after a write, a
                     filling and a list of writes (`get?_set`, `get?_fill`, `get?_extend`), and
                     where a filling puts its keys (`fill_entries`);
* `lastBy`           the last item with a key, `mergeBy` a list of items laid over another, in
                     the order of their keys (`lastBy_mergeBy`, `mergeBy_perm`);
* `renew`            a list of items that has one put in for the others with its key: what is
                     found after a run of them (`firstBy_foldl_renew`).
-/

namespace Lib

section
variable {K V : Type*} [DecidableEq K]

def write (m : K → Option V) (w : K × V) : K → Option V := Function.update m w.1 (some w.2)

/-- the map a list of writes leaves -/
def overlay (writes : List (K × V)) : K → Option V := writes.foldl write fun _ => none

theorem overlay_nil (k : K) : overlay ([] : List (K × V)) k = none := rfl

theorem write_apply (m : K → Option V) (w : K × V) (k : K) :
    write m w k = (if w.1 = k then some w.2 else none).or (m k) := by
  by_cases h : w.1 = k
  · subst h
    rw [write, Function.update_self, if_pos rfl, Option.some_or]
  · rw [write, Function.update_of_ne (Ne.symm h), if_neg h, Option.none_or]

theorem foldl_write (m : K → Option V) (l : List (K × V)) (k : K) :
    (l.foldl write m) k = (overlay l k).or (m k) := by
  induction l generalizing m with
  | nil => rfl
  | cons w l ih =>
    have hw : overlay (w :: l) k = (overlay l k).or (write (fun _ => none) w k) := ih _
    rw [List.foldl_cons, ih, hw, Option.or_assoc, write_apply m, write_apply, Option.or_none]

theorem overlay_cons (w : K × V) (l : List (K × V)) (k : K) :
    overlay (w :: l) k = (overlay l k).or (if w.1 = k then some w.2 else none) := by
  have hf : overlay (w :: l) = l.foldl write (write (fun _ => none) w) := rfl
  rw [hf, foldl_write, write_apply, Option.or_none]

theorem overlay_append (l m : List (K × V)) (k : K) :
    overlay (l ++ m) k = (overlay m k).or (overlay l k) := by
  rw [overlay, List.foldl_append, foldl_write]
  rfl

theorem overlay_mem {l : List (K × V)} {k : K} {v : V} (h : overlay l k = some v) :
    (k, v) ∈ l := by
  induction l with
  | nil => cases h
  | cons w l ih =>
    rw [overlay_cons] at h
    rcases Option.or_eq_some_iff.mp h with h | ⟨_, h⟩
    · exact List.mem_cons_of_mem _ (ih h)
    · obtain ⟨hk, h⟩ := Option.ite_none_right_eq_some.mp h
      have hw : w = (k, v) := Prod.ext hk (Option.some.inj h)
      exact hw ▸ List.mem_cons_self

theorem overlay_eq_none {l : List (K × V)} {k : K} : overlay l k = none ↔ k ∉ l.map Prod.fst := by
  induction l with
  | nil => simp [overlay_nil]
  | cons w l ih =>
    rw [overlay_cons, Option.or_eq_none_iff, ih, List.map_cons, List.mem_cons, not_or, and_comm]
    by_cases h : w.1 = k
    · simp [h]
    · simp [h, Ne.symm h]

theorem overlay_nodup {l : List (K × V)} (h : (l.map Prod.fst).Nodup) {k : K} {v : V} :
    overlay l k = some v ↔ (k, v) ∈ l := by
  refine ⟨overlay_mem, fun hm => ?_⟩
  cases ho : overlay l k with
  | none => exact absurd (List.mem_map_of_mem hm) (overlay_eq_none.mp ho)
  | some u =>
    have he : (k, u) = (k, v) := List.inj_on_of_nodup_map h (overlay_mem ho) hm rfl
    rw [(Prod.mk.inj he).2]

/-- **The order of the writes** does not matter when no key is written twice. -/
theorem overlay_perm {l m : List (K × V)} (h : (l.map Prod.fst).Nodup) (hp : l.Perm m) :
    overlay l = overlay m := by
  funext k
  refine Option.ext fun v => ?_
  rw [overlay_nodup h, overlay_nodup ((hp.map Prod.fst).nodup_iff.mp h)]
  exact hp.mem_iff

theorem overlay_filter (p : K → Bool) (l : List (K × V)) (k : K) :
    overlay (l.filter fun w => p w.1) k = if p k then overlay l k else none := by
  induction l with
  | nil => exact (ite_self _).symm
  | cons w l ih =>
    by_cases hw : p w.1 = true
    · rw [List.filter_cons_of_pos (by simpa using hw), overlay_cons, ih, overlay_cons]
      by_cases hk : w.1 = k
      · subst hk
        simp [hw]
      · simp [hk]
    · rw [List.filter_cons_of_neg (by simpa using hw), ih, overlay_cons]
      by_cases hk : w.1 = k
      · subst hk
        simp [hw]
      · simp [hk]

theorem overlay_filterMap_none {A : Type*} {f : A → Option (K × V)} {l : List A} {k : K} :
    overlay (l.filterMap f) k = none ↔ ∀ a ∈ l, ∀ v, f a ≠ some (k, v) := by
  rw [overlay_eq_none]
  constructor
  · intro h a ha v hv
    exact h (List.mem_map_of_mem (List.mem_filterMap.mpr ⟨a, ha, hv⟩))
  · intro h hk
    obtain ⟨⟨k', v⟩, he, rfl⟩ := List.mem_map.mp hk
    obtain ⟨a, ha, hv⟩ := List.mem_filterMap.mp he
    exact h a ha v hv

theorem overlay_filterMap_cons {A : Type*} (f : A → Option (K × V)) (a : A) (l : List A) (k : K) :
    overlay ((a :: l).filterMap f) k
      = (overlay (l.filterMap f) k).or (overlay (f a).toList k) := by
  rw [← overlay_append]
  cases hf : f a with
  | none => rw [List.filterMap_cons_none hf, Option.toList_none, List.nil_append]
  | some w => rw [List.filterMap_cons_some hf, Option.toList_some, List.singleton_append]

/-- **What the items of a list leave** at a key is what the last of them that writes to it does. -/
theorem overlay_filterMap {A : Type*} {f : A → Option (K × V)} {l : List A} {k : K} {v : V} :
    overlay (l.filterMap f) k = some v ↔ ∃ before a after, l = before ++ a :: after ∧
      f a = some (k, v) ∧ ∀ b ∈ after, ∀ w, f b ≠ some (k, w) := by
  constructor
  · intro h
    induction l with
    | nil => cases h
    | cons a l ih =>
      rw [overlay_filterMap_cons] at h
      rcases Option.or_eq_some_iff.mp h with h | ⟨hn, ha⟩
      · obtain ⟨before, b, after, rfl, hb⟩ := ih h
        exact ⟨a :: before, b, after, rfl, hb⟩
      · exact ⟨[], a, l, rfl, Option.mem_toList.mp (overlay_mem ha),
          overlay_filterMap_none.mp hn⟩
  · rintro ⟨before, a, after, rfl, ha, hafter⟩
    rw [List.filterMap_append, List.filterMap_cons_some ha, overlay_append, overlay_cons,
      overlay_filterMap_none.mpr hafter, Option.none_or, if_pos rfl, Option.some_or]

end

/-! ## maps in the order of their keys -/

/-- two lists strictly in the order of their keys are equal when they have the same members -/
theorem eq_of_strict {A K : Type*} [Preorder K] {key : A → K} {l m : List A}
    (hl : l.Pairwise fun a b => key a < key b) (hm : m.Pairwise fun a b => key a < key b)
    (h : ∀ a, a ∈ l ↔ a ∈ m) : l = m := by
  have hnodup : ∀ l : List A, (l.Pairwise fun a b => key a < key b) → l.Nodup :=
    fun l hl => hl.imp fun hab he => absurd (congrArg key he) hab.ne
  have hp : l.Perm m := (List.perm_ext_iff_of_nodup (hnodup l hl) (hnodup m hm)).mpr h
  have hasymm : ∀ a b, a ∈ l → b ∈ m → key a < key b → key b < key a → a = b :=
    fun a b _ _ hab hba => absurd hba (lt_asymm hab)
  exact List.Perm.eq_of_pairwise hasymm hl hm hp

structure OrdMap (K V : Type*) [LinearOrder K] where
  entries : List (K × V)
  sorted : (entries.map Prod.fst).Pairwise (· < ·)

namespace OrdMap
variable {K V : Type*} [LinearOrder K]

def empty : OrdMap K V := ⟨[], List.Pairwise.nil⟩

def put (k : K) (v : V) : List (K × V) → List (K × V)
  | [] => [(k, v)]
  | e :: l => if k < e.1 then (k, v) :: e :: l else if k = e.1 then (k, v) :: l else e :: put k v l

theorem mem_put {k : K} {v : V} {l : List (K × V)} {x : K}
    (h : x ∈ (put k v l).map Prod.fst) : x = k ∨ x ∈ l.map Prod.fst := by
  induction l with
  | nil => exact Or.inl (List.mem_singleton.mp h)
  | cons e l ih =>
    unfold put at h
    split_ifs at h with h1 h2
    · exact List.mem_cons.mp h
    · exact (List.mem_cons.mp h).imp_right (List.mem_cons_of_mem _)
    · rcases List.mem_cons.mp h with rfl | h
      · exact Or.inr List.mem_cons_self
      · exact (ih h).imp_right (List.mem_cons_of_mem _)

theorem put_sorted (k : K) (v : V) {l : List (K × V)}
    (h : (l.map Prod.fst).Pairwise (· < ·)) : ((put k v l).map Prod.fst).Pairwise (· < ·) := by
  induction l with
  | nil => exact List.pairwise_singleton _ _
  | cons e l ih =>
    obtain ⟨he, hl⟩ := List.pairwise_cons.mp h
    unfold put
    split_ifs with h1 h2
    · refine List.pairwise_cons.mpr ⟨fun x hx => ?_, h⟩
      rcases List.mem_cons.mp hx with rfl | hx
      · exact h1
      · exact h1.trans (he x hx)
    · exact List.pairwise_cons.mpr ⟨fun x hx => h2 ▸ he x hx, hl⟩
    · refine List.pairwise_cons.mpr ⟨fun x hx => ?_, ih hl⟩
      rcases mem_put hx with rfl | hx
      · exact lt_of_le_of_ne (not_lt.mp h1) (Ne.symm h2)
      · exact he x hx

def insert (m : OrdMap K V) (k : K) (v : V) : OrdMap K V :=
  ⟨put k v m.entries, put_sorted k v m.sorted⟩

def get? (m : OrdMap K V) (k : K) : Option V := overlay m.entries k

/-- the entries of a list, inserted one after the other -/
def extend (m : OrdMap K V) (l : List (K × V)) : OrdMap K V :=
  l.foldl (fun m e => m.insert e.1 e.2) m

def values (m : OrdMap K V) : List V := m.entries.map Prod.snd

theorem nodup (m : OrdMap K V) : (m.entries.map Prod.fst).Nodup := m.sorted.imp ne_of_lt

theorem get?_eq_some {m : OrdMap K V} {k : K} {v : V} :
    m.get? k = some v ↔ (k, v) ∈ m.entries := overlay_nodup m.nodup

theorem mem_put_iff {k : K} {v : V} {l : List (K × V)} (hl : (l.map Prod.fst).Pairwise (· < ·))
    {e : K × V} : e ∈ put k v l ↔ e = (k, v) ∨ (e.1 ≠ k ∧ e ∈ l) := by
  induction l with
  | nil => simp [put]
  | cons d l ih =>
    obtain ⟨hd, hl⟩ := List.pairwise_cons.mp hl
    have hgt : ∀ x ∈ l, d.1 < x.1 := fun x hx => hd x.1 (List.mem_map_of_mem hx)
    unfold put
    split_ifs with h1 h2
    · refine List.mem_cons.trans (or_congr_right ⟨fun h => ⟨?_, h⟩, And.right⟩)
      rcases List.mem_cons.mp h with rfl | h
      · exact ne_of_gt h1
      · exact ne_of_gt (h1.trans (hgt e h))
    · refine List.mem_cons.trans (or_congr_right ⟨fun h => ⟨?_, List.mem_cons_of_mem _ h⟩, ?_⟩)
      · exact ne_of_gt (h2 ▸ hgt e h)
      · rintro ⟨hne, h⟩
        rcases List.mem_cons.mp h with rfl | h
        · exact absurd h2.symm hne
        · exact h
    · rw [List.mem_cons, List.mem_cons, ih hl]
      constructor
      · rintro (rfl | h | ⟨hne, h⟩)
        · exact Or.inr ⟨Ne.symm h2, Or.inl rfl⟩
        · exact Or.inl h
        · exact Or.inr ⟨hne, Or.inr h⟩
      · rintro (h | ⟨hne, rfl | h⟩)
        · exact Or.inr (Or.inl h)
        · exact Or.inl rfl
        · exact Or.inr (Or.inr ⟨hne, h⟩)

theorem get?_insert (m : OrdMap K V) (k : K) (v : V) :
    (m.insert k v).get? = Function.update m.get? k (some v) := by
  funext x
  refine Option.ext fun u => ?_
  rw [get?_eq_some]
  refine (mem_put_iff m.sorted).trans ?_
  by_cases h : x = k
  · subst h
    rw [Function.update_self]
    simp [eq_comm]
  · rw [Function.update_of_ne h, get?_eq_some]
    simp [h]

theorem get?_extend (m : OrdMap K V) (l : List (K × V)) (k : K) :
    (m.extend l).get? k = (overlay l k).or (m.get? k) := by
  rw [← foldl_write m.get? l k]
  refine congrFun ?_ k
  induction l generalizing m with
  | nil => rfl
  | cons e l ih =>
    show (extend (m.insert e.1 e.2) l).get? = _
    rw [ih, get?_insert]
    rfl

theorem ext_get? {a b : OrdMap K V} (h : ∀ k, a.get? k = b.get? k) : a = b := by
  have hmem : ∀ e, e ∈ a.entries ↔ e ∈ b.entries := by
    rintro ⟨k, v⟩
    rw [← get?_eq_some, ← get?_eq_some, h]
  have he : a.entries = b.entries :=
    eq_of_strict (List.pairwise_map.mp a.sorted) (List.pairwise_map.mp b.sorted) hmem
  obtain ⟨entries, sorted⟩ := a
  cases he
  rfl

theorem put_map {W : Type*} (f : V → W) (k : K) (v : V) (l : List (K × V)) :
    put k (f v) (l.map fun e => (e.1, f e.2)) = (put k v l).map fun e => (e.1, f e.2) := by
  induction l with
  | nil => rfl
  | cons e l ih =>
    rw [List.map_cons, put, put]
    split_ifs with h1 h2
    · rfl
    · rfl
    · rw [ih, List.map_cons]

theorem extend_map {W : Type*} (f : V → W) {m : OrdMap K V} {n : OrdMap K W}
    (h : n.entries = m.entries.map fun e => (e.1, f e.2)) (l : List (K × V)) :
    (n.extend (l.map fun e => (e.1, f e.2))).entries
      = (m.extend l).entries.map fun e => (e.1, f e.2) := by
  induction l generalizing m n with
  | nil => exact h
  | cons e l ih =>
    refine ih (m := m.insert e.1 e.2) (n := n.insert e.1 (f e.2)) ?_
    show put e.1 (f e.2) n.entries = _
    rw [h, put_map]
    rfl

end OrdMap

/-! ## maps in the order of their first writes -/

structure SeqMap (K V : Type*) where
  entries : List (K × V)
  nodup : (entries.map Prod.fst).Nodup

namespace SeqMap
variable {K V : Type*}

def empty : SeqMap K V := ⟨[], List.nodup_nil⟩

def retain (keep : K → Bool) (m : SeqMap K V) : SeqMap K V :=
  ⟨m.entries.filter fun e => keep e.1,
    List.Nodup.sublist (List.Sublist.map _ List.filter_sublist) m.nodup⟩

theorem ext_entries {m n : SeqMap K V} (h : m.entries = n.entries) : m = n := by
  obtain ⟨entries, nodup⟩ := m
  cases h
  rfl

theorem nodup_concat {l : List (K × V)} {e : K × V} (hl : (l.map Prod.fst).Nodup)
    (he : e.1 ∉ l.map Prod.fst) : ((l ++ [e]).map Prod.fst).Nodup := by
  rw [List.map_append]
  refine List.Nodup.append hl (List.nodup_singleton _) fun x hx hs => he ?_
  exact List.mem_singleton.mp hs ▸ hx

variable [DecidableEq K]

/-- the entries with `v` at `k`: in place, or behind the others -/
def replace (k : K) (v : V) : List (K × V) → List (K × V)
  | [] => [(k, v)]
  | e :: l => if e.1 = k then (e.1, v) :: l else e :: replace k v l

theorem replace_keys (k : K) (v : V) (l : List (K × V)) :
    (replace k v l).map Prod.fst
      = if k ∈ l.map Prod.fst then l.map Prod.fst else l.map Prod.fst ++ [k] := by
  induction l with
  | nil => rfl
  | cons e l ih =>
    rw [replace]
    by_cases he : e.1 = k
    · simp [he]
    · rw [if_neg he, List.map_cons, List.map_cons, ih]
      by_cases hk : k ∈ l.map Prod.fst
      · rw [if_pos hk, if_pos (List.mem_cons_of_mem _ hk)]
      · have hn : k ∉ e.1 :: l.map Prod.fst := by
          intro hm
          rcases List.mem_cons.mp hm with hm | hm
          · exact he hm.symm
          · exact hk hm
        rw [if_neg hk, if_neg hn, List.cons_append]

theorem replace_nodup (k : K) (v : V) {l : List (K × V)} (h : (l.map Prod.fst).Nodup) :
    ((replace k v l).map Prod.fst).Nodup := by
  rw [replace_keys]
  split_ifs with hk
  · exact h
  · have hc := nodup_concat (e := (k, v)) h hk
    rwa [List.map_append] at hc

def set (m : SeqMap K V) (k : K) (v : V) : SeqMap K V :=
  ⟨replace k v m.entries, replace_nodup k v m.nodup⟩

def get? (m : SeqMap K V) (k : K) : Option V :=
  (m.entries.find? fun e => e.1 = k).map Prod.snd

theorem find?_eq_overlay {l : List (K × V)} (h : (l.map Prod.fst).Nodup) (k : K) :
    (l.find? fun e => e.1 = k).map Prod.snd = overlay l k := by
  induction l with
  | nil => rfl
  | cons e l ih =>
    obtain ⟨he, hl⟩ := List.nodup_cons.mp h
    rw [overlay_cons, List.find?_cons]
    by_cases hk : e.1 = k
    · subst hk
      simp [overlay_eq_none.mpr he]
    · simp [hk, ih hl]

/-- **What a map holds** is what its entries, written one after the other, leave. -/
theorem get?_eq (m : SeqMap K V) (k : K) : m.get? k = overlay m.entries k :=
  find?_eq_overlay m.nodup k

theorem get?_eq_some {m : SeqMap K V} {k : K} {v : V} :
    m.get? k = some v ↔ (k, v) ∈ m.entries := by
  rw [get?_eq]
  exact overlay_nodup m.nodup

theorem get?_eq_none {m : SeqMap K V} {k : K} :
    m.get? k = none ↔ k ∉ m.entries.map Prod.fst := by
  rw [get?_eq]
  exact overlay_eq_none

theorem overlay_replace (k : K) (v : V) (l : List (K × V)) (x : K)
    (h : (l.map Prod.fst).Nodup) :
    overlay (replace k v l) x = if k = x then some v else overlay l x := by
  induction l with
  | nil => exact overlay_cons _ _ _
  | cons e l ih =>
    obtain ⟨he, hl⟩ := List.nodup_cons.mp h
    rw [replace]
    by_cases hk : e.1 = k
    · subst hk
      rw [if_pos rfl, overlay_cons, overlay_cons]
      by_cases hx : e.1 = x
      · subst hx
        simp [overlay_eq_none.mpr he]
      · simp [hx]
    · rw [if_neg hk, overlay_cons, overlay_cons, ih hl]
      by_cases hx : k = x
      · subst hx
        simp
      · simp [hx]

theorem get?_set (m : SeqMap K V) (k : K) (v : V) (x : K) :
    (m.set k v).get? x = if k = x then some v else m.get? x := by
  rw [get?_eq, get?_eq]
  exact overlay_replace k v m.entries x m.nodup

theorem get?_retain (keep : K → Bool) (m : SeqMap K V) (k : K) :
    (m.retain keep).get? k = if keep k then m.get? k else none := by
  rw [get?_eq, get?_eq]
  exact overlay_filter keep m.entries k

/-- an entry put behind the others, unless its key is there -/
def add (m : SeqMap K V) (e : K × V) : SeqMap K V :=
  if h : m.get? e.1 = none then ⟨m.entries ++ [e], nodup_concat m.nodup (get?_eq_none.mp h)⟩ else m

/-- the entries of `other` whose keys are not there, put behind the others -/
def fill (m other : SeqMap K V) : SeqMap K V := other.entries.foldl add m

theorem get?_add (m : SeqMap K V) (e : K × V) (k : K) :
    (m.add e).get? k = (m.get? k).or (if e.1 = k then some e.2 else none) := by
  unfold add
  split_ifs with h hk hk
  · subst hk
    rw [get?_eq, overlay_append, ← get?_eq, h, overlay_cons, overlay_nil, if_pos rfl]
    rfl
  · rw [get?_eq, overlay_append, overlay_cons, overlay_nil, if_neg hk, ← get?_eq, Option.none_or,
      Option.or_none, Option.none_or]
  · subst hk
    obtain ⟨v, hv⟩ := Option.ne_none_iff_exists'.mp h
    rw [hv]
    rfl
  · rw [Option.or_none]

theorem get?_foldl_add {l : List (K × V)} (h : (l.map Prod.fst).Nodup) (m : SeqMap K V) (k : K) :
    (l.foldl add m).get? k = (m.get? k).or (overlay l k) := by
  induction l generalizing m with
  | nil => exact Option.or_none.symm
  | cons e l ih =>
    obtain ⟨he, hl⟩ := List.nodup_cons.mp h
    rw [List.foldl_cons, ih hl, get?_add, Option.or_assoc, overlay_cons]
    by_cases hk : e.1 = k
    · subst hk
      rw [overlay_eq_none.mpr he, Option.or_none, Option.none_or]
    · rw [if_neg hk, Option.or_none, Option.none_or]

theorem get?_fill (m other : SeqMap K V) (k : K) :
    (m.fill other).get? k = (m.get? k).or (other.get? k) := by
  rw [get?_eq other]
  exact get?_foldl_add other.nodup m k

theorem foldl_add_entries {l : List (K × V)} (h : (l.map Prod.fst).Nodup) (m : SeqMap K V) :
    (l.foldl add m).entries
      = m.entries ++ l.filter fun e => decide (m.get? e.1 = none) := by
  induction l generalizing m with
  | nil => exact (List.append_nil _).symm
  | cons e l ih =>
    obtain ⟨he, hl⟩ := List.nodup_cons.mp h
    -- the keys that follow are not the one just put in
    have hrest : (l.filter fun x => decide ((m.add e).get? x.1 = none))
        = l.filter fun x => decide (m.get? x.1 = none) := by
      refine List.filter_congr fun x hx => ?_
      have hne : e.1 ≠ x.1 := fun hex => he (hex ▸ List.mem_map_of_mem hx)
      rw [get?_add, if_neg hne, Option.or_none]
    rw [List.foldl_cons, ih hl, hrest, List.filter_cons]
    by_cases hm : m.get? e.1 = none
    · rw [if_pos (decide_eq_true hm), add, dif_pos hm, List.append_assoc, List.singleton_append]
    · rw [if_neg (by simpa using hm), add, dif_neg hm]

/-- **Filling** puts the other map's new keys behind the entries, in its order. -/
theorem fill_entries (m other : SeqMap K V) : (m.fill other).entries
    = m.entries ++ other.entries.filter fun e => decide (m.get? e.1 = none) :=
  foldl_add_entries other.nodup m

theorem fill_eq_self {m other : SeqMap K V} (h : ∀ e ∈ other.entries, m.get? e.1 ≠ none) :
    m.fill other = m := by
  refine ext_entries ?_
  rw [fill_entries, List.append_right_eq_self, List.filter_eq_nil_iff]
  exact fun e he hn => h e he (of_decide_eq_true hn)

theorem get?_ne_none {m : SeqMap K V} {e : K × V} (h : e ∈ m.entries) : m.get? e.1 ≠ none := by
  rw [get?_eq_some.mpr h]
  exact Option.some_ne_none e.2

theorem fill_self (m : SeqMap K V) : m.fill m = m := fill_eq_self fun _ he => get?_ne_none he

theorem fill_fill (m other : SeqMap K V) : (m.fill other).fill other = m.fill other := by
  refine fill_eq_self fun e he hn => ?_
  rw [get?_fill, Option.or_eq_none_iff] at hn
  exact get?_ne_none he hn.2

/-- the writes made one after the other -/
def extend (m : SeqMap K V) (l : List (K × V)) : SeqMap K V :=
  l.foldl (fun m e => m.set e.1 e.2) m

theorem get?_extend (m : SeqMap K V) (l : List (K × V)) (k : K) :
    (m.extend l).get? k = (overlay l k).or (m.get? k) := by
  induction l generalizing m with
  | nil => rfl
  | cons e l ih =>
    show (extend (m.set e.1 e.2) l).get? k = _
    rw [ih, get?_set, overlay_cons, Option.or_assoc]
    by_cases hk : e.1 = k
    · rw [if_pos hk, if_pos hk, Option.some_or]
    · rw [if_neg hk, if_neg hk, Option.none_or]

theorem replace_fresh {k : K} (v : V) {l : List (K × V)} (h : k ∉ l.map Prod.fst) :
    replace k v l = l ++ [(k, v)] := by
  induction l with
  | nil => rfl
  | cons e l ih =>
    have he : ¬e.1 = k := fun he => h (he ▸ List.mem_cons_self)
    rw [replace, if_neg he, ih fun hk => h (List.mem_cons_of_mem _ hk), List.cons_append]

theorem extend_fresh {m : SeqMap K V} {l : List (K × V)}
    (h : ((m.entries ++ l).map Prod.fst).Nodup) : (m.extend l).entries = m.entries ++ l := by
  induction l generalizing m with
  | nil => exact (List.append_nil _).symm
  | cons e l ih =>
    have hm : (m.set e.1 e.2).entries = m.entries ++ [e] := by
      refine replace_fresh e.2 fun hk => ?_
      rw [List.map_append, List.map_cons] at h
      exact (List.nodup_append.mp h).2.2 _ hk _ List.mem_cons_self rfl
    have hl : ((m.set e.1 e.2).entries ++ l) = m.entries ++ e :: l := by
      rw [hm, List.append_assoc, List.singleton_append]
    show (extend (m.set e.1 e.2) l).entries = _
    rw [ih (hl ▸ h), hl]

theorem extend_entries (m : SeqMap K V) : empty.extend m.entries = m :=
  ext_entries (extend_fresh m.nodup)

end SeqMap

/-! ## items with a key -/

section
variable {K A : Type*}

def keyed (key : A → K) (l : List A) : List (K × A) := l.map fun a => (key a, a)

theorem keyed_fst (key : A → K) (l : List A) : (keyed key l).map Prod.fst = l.map key := by
  rw [keyed, List.map_map]
  rfl

theorem mem_keyed {key : A → K} {l : List A} {k : K} {a : A} :
    (k, a) ∈ keyed key l ↔ a ∈ l ∧ key a = k := by
  rw [keyed, List.mem_map]
  constructor
  · rintro ⟨b, hb, he⟩
    obtain ⟨rfl, rfl⟩ := Prod.mk.inj he
    exact ⟨hb, rfl⟩
  · rintro ⟨ha, rfl⟩
    exact ⟨a, ha, rfl⟩

def lastBy [DecidableEq K] (key : A → K) (l : List A) (k : K) : Option A := overlay (keyed key l) k

theorem lastBy_mem [DecidableEq K] {key : A → K} {l : List A} {k : K} {a : A}
    (h : lastBy key l k = some a) : a ∈ l ∧ key a = k := mem_keyed.mp (overlay_mem h)

theorem lastBy_eq_none [DecidableEq K] {key : A → K} {l : List A} {k : K} :
    lastBy key l k = none ↔ k ∉ l.map key := by
  rw [lastBy, overlay_eq_none, keyed_fst]

theorem lastBy_filter [DecidableEq K] (key : A → K) (p : K → Bool) (l : List A) (k : K) :
    lastBy key (l.filter fun a => p (key a)) k = if p k then lastBy key l k else none := by
  rw [lastBy, lastBy, ← overlay_filter]
  congr 1
  rw [keyed, keyed, List.filter_map]
  rfl

theorem lastBy_perm [DecidableEq K] {key : A → K} {l m : List A} (h : (l.map key).Nodup)
    (hp : l.Perm m) : lastBy key l = lastBy key m :=
  overlay_perm ((keyed_fst key l).symm ▸ h) (hp.map _)

variable [LinearOrder K]

/-- the items of `m` laid over those of `l`, in the order of their keys -/
def mergeBy (key : A → K) (l m : List A) : List A :=
  ((OrdMap.empty.extend (keyed key l)).extend (keyed key m)).values

/-- the merged map holds what was laid over last -/
theorem get?_merged (key : A → K) (l m : List A) (k : K) :
    ((OrdMap.empty.extend (keyed key l)).extend (keyed key m)).get? k =
      (lastBy key m k).or (lastBy key l k) := by
  rw [OrdMap.get?_extend, OrdMap.get?_extend]
  exact congrArg _ (Option.or_none)

theorem keyed_mergeBy (key : A → K) (l m : List A) :
    keyed key (mergeBy key l m) =
      ((OrdMap.empty.extend (keyed key l)).extend (keyed key m)).entries := by
  rw [keyed, mergeBy, OrdMap.values, List.map_map]
  refine (List.map_congr_left fun e he => ?_).trans (List.map_id _)
  have hx := OrdMap.get?_eq_some.mpr he
  rw [get?_merged] at hx
  rcases Option.or_eq_some_iff.mp hx with hx | ⟨_, hx⟩
  · exact Prod.ext (lastBy_mem hx).2 rfl
  · exact Prod.ext (lastBy_mem hx).2 rfl

theorem lastBy_mergeBy (key : A → K) (l m : List A) (k : K) :
    lastBy key (mergeBy key l m) k = (lastBy key m k).or (lastBy key l k) := by
  rw [← get?_merged, OrdMap.get?, ← keyed_mergeBy]
  rfl

theorem mergeBy_sorted (key : A → K) (l m : List A) :
    (mergeBy key l m).Pairwise fun a b => key a < key b := by
  rw [← List.pairwise_map, ← keyed_fst, keyed_mergeBy]
  exact OrdMap.sorted _

/-- a merged item is the last with its key, of the list on top if it has the key -/
theorem mem_mergeBy (key : A → K) (l m : List A) (a : A) :
    a ∈ mergeBy key l m ↔ (lastBy key m (key a)).or (lastBy key l (key a)) = some a := by
  rw [← lastBy_mergeBy]
  refine ⟨fun ha => ?_, fun h => (lastBy_mem h).1⟩
  have hnodup : ((keyed key (mergeBy key l m)).map Prod.fst).Nodup := by
    rw [keyed_mergeBy]
    exact OrdMap.nodup _
  exact (overlay_nodup hnodup).mpr (mem_keyed.mpr ⟨ha, rfl⟩)

/-- **The order of the items** does not matter when no key comes twice. -/
theorem mergeBy_perm {key : A → K} {l m l' m' : List A} (hl : (l.map key).Nodup)
    (hm : (m.map key).Nodup) (hpl : l.Perm l') (hpm : m.Perm m') :
    mergeBy key l m = mergeBy key l' m' := by
  refine congrArg OrdMap.values (OrdMap.ext_get? fun k => ?_)
  simp only [OrdMap.get?_extend]
  have h1 := congrFun (lastBy_perm hl hpl) k
  have h2 := congrFun (lastBy_perm hm hpm) k
  unfold lastBy at h1 h2
  rw [h1, h2]

theorem mergeBy_map {B : Type*} (key : B → K) (f : A → B) (l m : List A) :
    mergeBy key (l.map f) (m.map f) = (mergeBy (fun a => key (f a)) l m).map f := by
  have hk : ∀ n : List A, keyed key (n.map f)
      = (keyed (fun a => key (f a)) n).map fun e => (e.1, f e.2) := by
    intro n
    rw [keyed, keyed, List.map_map, List.map_map]
    rfl
  have hl := OrdMap.extend_map f (m := OrdMap.empty) (n := OrdMap.empty) rfl
    (keyed (fun a => key (f a)) l)
  unfold mergeBy OrdMap.values
  rw [hk, hk, OrdMap.extend_map f hl, List.map_map, List.map_map]
  rfl

end

/-! ## items renewed by key -/

section
variable {K A : Type*} [DecidableEq K] (key : A → K)

def firstBy (l : List A) (k : K) : Option A := l.find? fun a => decide (key a = k)

/-- `a` behind the items with other keys -/
def renew (l : List A) (a : A) : List A := (l.filter fun b => decide (key b ≠ key a)) ++ [a]

theorem firstBy_renew (l : List A) (a : A) (k : K) :
    firstBy key (renew key l a) k = if key a = k then some a else firstBy key l k := by
  rw [firstBy, renew, List.find?_append, List.find?_filter, List.find?_singleton]
  by_cases hk : key a = k
  · -- none of the items kept has the key
    have hold : l.find? (fun b =>
        decide (decide (key b ≠ key a) = true ∧ decide (key b = k) = true)) = none := by
      rw [List.find?_eq_none]
      intro b _ hb
      simp only [decide_eq_true_eq, hk] at hb
      exact hb.1 hb.2
    rw [hold, if_pos hk, if_pos (decide_eq_true hk), Option.none_or]
  · have hsame : (fun b => decide (decide (key b ≠ key a) = true ∧ decide (key b = k) = true))
        = fun b => decide (key b = k) := by
      funext b
      by_cases hb : key b = k
      · simp [hb, Ne.symm hk]
      · simp [hb]
    rw [hsame, if_neg hk, if_neg (by simpa using hk), Option.or_none, firstBy]

/-- **After a run of renewals** a key has the last item put in, else the first there was. -/
theorem firstBy_foldl_renew (l as : List A) (k : K) :
    firstBy key (as.foldl (renew key) l) k = (lastBy key as k).or (firstBy key l k) := by
  induction as generalizing l with
  | nil => rfl
  | cons a as ih =>
    have hlast : lastBy key (a :: as) k
        = (lastBy key as k).or (if key a = k then some a else none) := overlay_cons _ _ _
    rw [List.foldl_cons, ih, firstBy_renew, hlast, Option.or_assoc]
    split_ifs with hk
    · rw [Option.some_or]
    · rw [Option.none_or]

theorem renew_nodup {l : List A} (h : (l.map key).Nodup) (a : A) :
    ((renew key l a).map key).Nodup := by
  rw [renew, List.map_append]
  refine List.Nodup.append ?_ (List.nodup_singleton _) ?_
  · exact h.sublist (List.filter_sublist.map key)
  · intro k hk hs
    obtain ⟨b, hb, rfl⟩ := List.mem_map.mp hk
    exact of_decide_eq_true (List.mem_filter.mp hb).2 (List.mem_singleton.mp hs)

end
end Lib
