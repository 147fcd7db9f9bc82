import Mathlib.Data.List.AList

/-!
# Batches of results, by key

A table holds a batch for every open key: how many results it expects, those it has, and the
channel the whole goes to.  A result joins the batch of its key; the batch it completes leaves
the table as one reply, and an error ends its key's batch at once.

* `Batch.run`              what a batch comes to, from its own results alone;
* `Batch.run_partial`, `Batch.run_complete`, `Batch.run_failed`   the three ways it can go;
* `Batches.deliver`        a result given to the table, with the reply it releases;
* `Batches.deliver_owners` no channel is lost or doubled: it stays in the table or is replied to;
* `Batches.deliver_filling`   a batch in the table is never complete.
-/

namespace Lib

structure Batch (V T : Type*) where
  expected : Nat
  got : List V
  tx : T
deriving DecidableEq, Repr

namespace Batch
variable {V E T : Type*}

/-- one result for the batch: it goes on, or it ends with a reply -/
def take (b : Batch V T) : Except E V → Batch V T ⊕ Except E (List V)
  | .error e => .inr (.error e)
  | .ok v =>
    if b.expected ≤ (b.got ++ [v]).length then .inr (.ok (b.got ++ [v]))
    else .inl { b with got := b.got ++ [v] }

/-- all the results meant for the batch, in the order they arrive -/
def run (b : Batch V T) : List (Except E V) → Batch V T ⊕ Except E (List V)
  | [] => .inl b
  | x :: xs =>
    match b.take x with
    | .inl b => b.run xs
    | .inr reply => .inr reply

theorem take_last (b : Batch V T) (v : V) (h : b.expected ≤ b.got.length + 1) :
    b.take (.ok v : Except E V) = .inr (.ok (b.got ++ [v])) := by
  have hlen : b.expected ≤ (b.got ++ [v]).length := by
    rw [List.length_append]
    exact h
  show (if _ then _ else _) = _
  rw [if_pos hlen]

theorem take_more (b : Batch V T) (v : V) (h : b.got.length + 1 < b.expected) :
    b.take (.ok v : Except E V) = .inl { b with got := b.got ++ [v] } := by
  have hlen : ¬ b.expected ≤ (b.got ++ [v]).length := by
    rw [List.length_append]
    exact not_le.mpr h
  show (if _ then _ else _) = _
  rw [if_neg hlen]

theorem take_tx {b b' : Batch V T} {x : Except E V} (h : b.take x = .inl b') : b'.tx = b.tx := by
  cases x with
  | error e => cases h
  | ok v =>
    by_cases hlen : b.got.length + 1 < b.expected
    · rw [take_more b v hlen] at h
      cases h
      rfl
    · rw [take_last b v (not_lt.mp hlen)] at h
      cases h

theorem take_filling {b b' : Batch V T} {x : Except E V} (h : b.take x = .inl b') :
    b'.got.length < b'.expected := by
  cases x with
  | error e => cases h
  | ok v =>
    by_cases hlen : b.got.length + 1 < b.expected
    · rw [take_more b v hlen] at h
      cases h
      show (b.got ++ [v]).length < b.expected
      rw [List.length_append]
      exact hlen
    · rw [take_last b v (not_lt.mp hlen)] at h
      cases h

theorem run_more (b : Batch V T) (vs : List V) (rest : List (Except E V))
    (h : b.got.length + vs.length < b.expected) :
    b.run (vs.map .ok ++ rest) = { b with got := b.got ++ vs }.run rest := by
  induction vs generalizing b with
  | nil => rw [List.map_nil, List.nil_append, List.append_nil]
  | cons v vs ih =>
    rw [List.length_cons] at h
    have htake : b.take (.ok v : Except E V) = .inl { b with got := b.got ++ [v] } :=
      take_more b v (by omega)
    rw [List.map_cons, List.cons_append, run, htake]
    show Batch.run { b with got := b.got ++ [v] } _ = _
    have hlen : (b.got ++ [v]).length + vs.length < b.expected := by
      rw [List.length_append, List.length_cons, List.length_nil]
      omega
    have hgot : b.got ++ [v] ++ vs = b.got ++ v :: vs := by
      rw [List.append_assoc, List.cons_append, List.nil_append]
    rw [ih { b with got := b.got ++ [v] } hlen, ← hgot]

theorem run_partial (b : Batch V T) (vs : List V) (h : b.got.length + vs.length < b.expected) :
    b.run (vs.map (.ok : V → Except E V)) = .inl { b with got := b.got ++ vs } := by
  have hrun := run_more (E := E) b vs [] h
  rw [List.append_nil] at hrun
  exact hrun

/-- **The last result expected** releases them all, in the order they arrived. -/
theorem run_complete (b : Batch V T) (vs : List V) (rest : List (Except E V))
    (hopen : b.got.length < b.expected) (h : b.got.length + vs.length = b.expected) :
    b.run (vs.map .ok ++ rest) = .inr (.ok (b.got ++ vs)) := by
  have hne : vs ≠ [] := by
    rintro rfl
    rw [List.length_nil] at h
    omega
  obtain ⟨init, v, rfl⟩ := List.eq_nil_or_concat' vs |>.resolve_left hne
  rw [List.length_append, List.length_cons, List.length_nil] at h
  rw [List.map_append, List.append_assoc, run_more b init _ (by omega), List.map_cons,
    List.map_nil, List.cons_append, run, take_last]
  · simp only [List.append_assoc]
  · simp only [List.length_append]
    omega

theorem run_failed (b : Batch V T) (vs : List V) (e : E) (rest : List (Except E V))
    (h : b.got.length + vs.length < b.expected) :
    b.run (vs.map .ok ++ .error e :: rest) = .inr (.error e) := by
  rw [run_more b vs _ h]
  rfl

end Batch

abbrev Batches (K V T : Type*) := AList fun _ : K => Batch V T

namespace Batches
variable {K V E T : Type*}

def owners (t : Batches K V T) : List T := t.entries.map fun entry => entry.2.tx

/-- no batch of the table is complete -/
def Filling [DecidableEq K] (t : Batches K V T) : Prop :=
  ∀ k b, t.lookup k = some b → b.got.length < b.expected

def drain (t : Batches K V T) (e : E) : List (T × Except E (List V)) :=
  t.entries.map fun entry => (entry.2.tx, .error e)

theorem drain_owners (t : Batches K V T) (e : E) :
    (drain t e).map Prod.fst = owners t := by
  unfold drain owners
  rw [List.map_map]
  rfl

variable [DecidableEq K]

/-- a result for the batch of `k`, with the reply it releases -/
def deliver (t : Batches K V T) (k : K) (x : Except E V) :
    Batches K V T × List (T × Except E (List V)) :=
  match t.lookup k with
  | none => (t, [])
  | some b =>
    match b.take x with
    | .inl b => (t.insert k b, [])
    | .inr reply => (t.erase k, [(b.tx, reply)])

theorem entries_perm {t : Batches K V T} {k : K} {b : Batch V T} (h : t.lookup k = some b) :
    t.entries.Perm (⟨k, b⟩ :: (t.erase k).entries) := by
  have hk : k ∈ t.entries.keys := List.dlookup_isSome.mp (by
    show (t.lookup k).isSome
    rw [h]
    rfl)
  obtain ⟨b', l₁, l₂, hl, he, hr⟩ := List.exists_of_kerase hk
  have hb : b' = b := by
    have hmem : (⟨k, b'⟩ : Sigma fun _ : K => Batch V T) ∈ t.entries := by
      rw [he]
      exact List.mem_append_right _ (List.mem_cons_self ..)
    have hlook := List.mem_dlookup t.nodupKeys hmem
    have hsome : some b' = some b := (Option.mem_def.mp hlook).symm.trans h
    exact Option.some.inj hsome
  have herase : (t.erase k).entries = l₁ ++ l₂ := hr
  rw [herase, he, hb]
  exact List.perm_middle

theorem mem_owners {t : Batches K V T} {k : K} {b : Batch V T} (h : t.lookup k = some b) :
    b.tx ∈ owners t := by
  have hp := (entries_perm h).map fun entry => entry.2.tx
  exact hp.mem_iff.mpr (List.mem_cons_self ..)

theorem owners_erase {t : Batches K V T} {k : K} {b : Batch V T} (h : t.lookup k = some b) :
    (owners t).Perm (b.tx :: owners (t.erase k)) := by
  have hp := (entries_perm h).map fun entry => entry.2.tx
  exact hp

theorem owners_insert_new {t : Batches K V T} {k : K} (h : t.lookup k = none) (b : Batch V T) :
    owners (t.insert k b) = b.tx :: owners t := by
  unfold owners
  rw [AList.entries_insert_of_notMem (AList.lookup_eq_none.mp h), List.map_cons]

theorem owners_insert {t : Batches K V T} {k : K} {b b' : Batch V T} (h : t.lookup k = some b)
    (htx : b'.tx = b.tx) : (owners (t.insert k b')).Perm (owners t) := by
  have hins : owners (t.insert k b') = b'.tx :: owners (t.erase k) := by
    unfold owners
    rw [AList.entries_insert, List.map_cons]
    rfl
  rw [hins, htx]
  exact (owners_erase h).symm

/-- **No channel is lost or doubled**: it stays in the table or is replied to. -/
theorem deliver_owners (t : Batches K V T) (k : K) (x : Except E V) :
    (owners (deliver t k x).1 ++ (deliver t k x).2.map Prod.fst).Perm (owners t) := by
  unfold deliver
  cases hb : t.lookup k with
  | none =>
    show (owners t ++ []).Perm _
    rw [List.append_nil]
  | some b =>
    cases hx : b.take x with
    | inl b' =>
      simp only [hx]
      show (owners (t.insert k b') ++ []).Perm _
      rw [List.append_nil]
      exact owners_insert hb (Batch.take_tx hx)
    | inr reply =>
      simp only [hx]
      show (owners (t.erase k) ++ [b.tx]).Perm _
      exact List.perm_append_comm.trans (owners_erase hb).symm

theorem deliver_lookup_ne {t : Batches K V T} {k k' : K} (x : Except E V) (h : k' ≠ k) :
    (deliver t k x).1.lookup k' = t.lookup k' := by
  unfold deliver
  cases t.lookup k with
  | none => rfl
  | some b =>
    cases hx : b.take x with
    | inl b' =>
      simp only [hx]
      exact AList.lookup_insert_ne h
    | inr reply =>
      simp only [hx]
      exact AList.lookup_erase_ne h

theorem deliver_mem {t : Batches K V T} {k k' : K} {x : Except E V}
    (h : k' ∈ (deliver t k x).1) : k' ∈ t := by
  by_cases hk : k' = k
  · subst hk
    by_contra hn
    have hnone : t.lookup k' = none := AList.lookup_eq_none.mpr hn
    unfold deliver at h
    rw [hnone] at h
    exact hn h
  · rw [← AList.lookup_isSome, deliver_lookup_ne x hk, AList.lookup_isSome] at h
    exact h

theorem deliver_filling {t : Batches K V T} (h : Filling t) (k : K) (x : Except E V) :
    Filling (deliver t k x).1 := by
  intro k' b' hb'
  by_cases hk : k' = k
  · subst hk
    unfold deliver at hb'
    cases hb : t.lookup k' with
    | none =>
      rw [hb] at hb'
      exact h k' b' hb'
    | some b =>
      rw [hb] at hb'
      cases hx : b.take x with
      | inl b₁ =>
        simp only [hx, AList.lookup_insert, Option.some.injEq] at hb'
        rw [← hb']
        exact Batch.take_filling hx
      | inr reply =>
        simp only [hx, AList.lookup_erase] at hb'
        cases hb'
  · rw [deliver_lookup_ne x hk] at hb'
    exact h k' b' hb'

theorem insert_filling {t : Batches K V T} (h : Filling t) (k : K) {b : Batch V T}
    (hb : b.got.length < b.expected) : Filling (t.insert k b) := by
  intro k' b' hb'
  by_cases hk : k' = k
  · rw [hk, AList.lookup_insert, Option.some.injEq] at hb'
    rw [← hb']
    exact hb
  · rw [AList.lookup_insert_ne hk] at hb'
    exact h k' b' hb'

theorem filling_empty : Filling (∅ : Batches K V T) := by
  intro k b h
  rw [AList.lookup_empty] at h
  cases h

end Batches
end Lib
