import Mathlib.Logic.Basic
import Mathlib.Logic.Function.Basic

/-!
# Programs of calls, and threads that run them on a shared state

`Prog C R α` is a program that makes calls `c : C`, goes on with the answer `r : R c`, and ends
with a value in `α`.  A call is the unit of interleaving: between two calls of a thread any
other thread and the environment may move.

A thread is safe (`Safe`) when, from a state where it may have to wait while the others move
inside its `rely`, its next call finds its precondition, keeps the invariant of the shared
state, and moves inside what every other thread relies on.

`Prog.All` and `Prog.Once` speak about the calls a program may make, whatever their answers,
`Prog.Conforms` about their order: a protocol allows calls by its place, which moves with every
answer.

* `Safe.stable`   a safe thread stays safe while the others move;
* `Safe.bind`     sequential composition, `Safe.andThen` for fallible programs;
* `Safe.perform`  a single call;
* `Safe.mono`     a stronger result is a result;
* `Pool.AllSafe.run`, `Pool.AllSafe.set`, `Pool.AllSafe.env`   the three ways a pool moves on
                  (a call, a thread started or stopped, the environment) keep it safe.
-/

namespace Lib

inductive Prog (C : Type) (R : C → Type) (α : Type) : Type
  | ret (a : α)
  | call (c : C) (k : R c → Prog C R α)

namespace Prog
variable {C D : Type} {R : C → Type} {Q : D → Type} {α β : Type}

def bind : Prog C R α → (α → Prog C R β) → Prog C R β
  | .ret a, f => f a
  | .call c k, f => .call c fun r => (k r).bind f

def perform (c : C) : Prog C R (R c) := .call c .ret

/-- the same program with its calls renamed, the answers carried along -/
def embed (f : C → D) (g : ∀ c, Q (f c) → R c) : Prog C R α → Prog D Q α
  | .ret a => .ret a
  | .call c k => .call (f c) fun q => (k (g c q)).embed f g

def next : Prog C R α → Option C
  | .ret _ => none
  | .call c _ => some c

instance : Monad (Prog C R) where
  pure := .ret
  bind := bind

/-! ## the calls of a program -/

/-- every call of the program meets `P` -/
def All (P : C → Prop) : Prog C R α → Prop
  | .ret _ => True
  | .call c k => P c ∧ ∀ r, (k r).All P

/-- after a call that meets `P` there is no other -/
def Once (P : C → Prop) : Prog C R α → Prop
  | .ret _ => True
  | .call c k => (P c → ∀ r, (k r).All fun c => ¬ P c) ∧ ∀ r, (k r).Once P

variable {P P' : C → Prop}

theorem All.bind {p : Prog C R α} {f : α → Prog C R β} (h : p.All P) (hf : ∀ a, (f a).All P) :
    (p.bind f).All P := by
  induction p with
  | ret a => exact hf a
  | call c k ih => exact ⟨h.1, fun r => ih r (h.2 r)⟩

theorem All.andThen {ε : Type} {p : ExceptT ε (Prog C R) α} {f : α → ExceptT ε (Prog C R) β}
    (h : p.run.All P) (hf : ∀ a, (f a).run.All P) : (p >>= f).run.All P := by
  refine All.bind (f := ExceptT.bindCont f) h fun r => ?_
  cases r with
  | ok a => exact hf a
  | error e => trivial

theorem All.lift {ε : Type} {p : Prog C R α} (h : p.All P) :
    (ExceptT.lift p : ExceptT ε (Prog C R) α).run.All P :=
  All.bind (f := .ret ∘ Except.ok) h fun _ => trivial

theorem All.embed {f : C → D} {g : ∀ c, Q (f c) → R c} {P : D → Prop} (h : ∀ c, P (f c))
    (p : Prog C R α) : (p.embed f g).All P := by
  induction p with
  | ret a => trivial
  | call c k ih => exact ⟨h c, fun q => ih (g c q)⟩

theorem Once.of_all {p : Prog C R α} (h : p.All fun c => ¬ P c) : p.Once P := by
  induction p with
  | ret a => trivial
  | call c k ih => exact ⟨fun hc => absurd hc h.1, fun r => ih r (h.2 r)⟩

theorem Once.before {p : Prog C R α} {f : α → Prog C R β} (h : p.Once P)
    (hf : ∀ a, (f a).All fun c => ¬ P c) : (p.bind f).Once P := by
  induction p with
  | ret a => exact Once.of_all (hf a)
  | call c k ih => exact ⟨fun hc r => (h.1 hc r).bind hf, fun r => ih r (h.2 r)⟩

theorem Once.beforeThen {ε : Type} {p : ExceptT ε (Prog C R) α}
    {f : α → ExceptT ε (Prog C R) β} (h : p.run.Once P)
    (hf : ∀ a, (f a).run.All fun c => ¬ P c) : (p >>= f).run.Once P := by
  refine Once.before (f := ExceptT.bindCont f) h fun r => ?_
  cases r with
  | ok a => exact hf a
  | error e => trivial

theorem Once.after {p : Prog C R α} {f : α → Prog C R β} (h : p.All fun c => ¬ P c)
    (hf : ∀ a, (f a).Once P) : (p.bind f).Once P := by
  induction p with
  | ret a => exact hf a
  | call c k ih => exact ⟨fun hc => absurd hc h.1, fun r => ih r (h.2 r)⟩

theorem Once.afterThen {ε : Type} {p : ExceptT ε (Prog C R) α}
    {f : α → ExceptT ε (Prog C R) β} (h : p.run.All fun c => ¬ P c)
    (hf : ∀ a, (f a).run.Once P) : (p >>= f).run.Once P := by
  refine Once.after (f := ExceptT.bindCont f) h fun r => ?_
  cases r with
  | ok a => exact hf a
  | error e => trivial

end Prog

/-! ## protocols of calls -/

/-- the calls allowed in a place, and the place after a call and its answer -/
structure Protocol (S C : Type) (R : C → Type) where
  allowed : S → C → Prop
  next : S → (c : C) → R c → S

namespace Prog
variable {S C : Type} {R : C → Type} {α β ε : Type} (P : Protocol S C R)

/-- the program keeps to the protocol from `st` on, and returns `a` in a place that is `final a` -/
def Conforms (final : α → S → Prop) : Prog C R α → S → Prop
  | .ret a, st => final a st
  | .call c k, st => P.allowed st c ∧ ∀ r, (k r).Conforms final (P.next st c r)

variable {P}

theorem Conforms.bind {mid : α → S → Prop} {final : β → S → Prop} {p : Prog C R α} {st : S}
    {f : α → Prog C R β} (h : p.Conforms P mid st)
    (hf : ∀ a st', mid a st' → (f a).Conforms P final st') : (p.bind f).Conforms P final st := by
  induction p generalizing st with
  | ret a => exact hf a st h
  | call c k ih => exact ⟨h.1, fun r => ih r (h.2 r)⟩

theorem Conforms.andThen {mid : S → Prop} {p : ExceptT ε (Prog C R) α} {st : S}
    {f : α → ExceptT ε (Prog C R) β} (h : p.run.Conforms P (fun _ => mid) st)
    (hf : ∀ a st', mid st' → (f a).run.Conforms P (fun _ => mid) st') :
    (p >>= f).run.Conforms P (fun _ => mid) st := by
  refine Conforms.bind (f := ExceptT.bindCont f) h fun r st' hm => ?_
  cases r with
  | ok a => exact hf a st' hm
  | error e => exact hm

theorem Conforms.lift {mid : S → Prop} {p : Prog C R α} {st : S}
    (h : p.Conforms P (fun _ => mid) st) :
    (ExceptT.lift p : ExceptT ε (Prog C R) α).run.Conforms P (fun _ => mid) st :=
  Conforms.bind (f := .ret ∘ Except.ok) h fun _ _ hm => hm

end Prog

section
variable {ι σ C χ : Type} {R : C → Type} {α β : Type}

/-- What the safety of a thread refers to: `exec i c x s` is the answer and the new state when
thread `i` makes the call `c` in `s` with the choice `x` (`none`: not possible, so the thread
waits). -/
structure Discipline (ι σ C χ : Type) (R : C → Type) where
  exec : ι → (c : C) → χ → σ → Option (R c × σ)
  inv : σ → Prop
  rely : ι → σ → σ → Prop
  pre : ι → C → σ → Prop
  refl : ∀ i s, rely i s s
  trans : ∀ i s t u, rely i s t → rely i t u → rely i s u

variable (D : Discipline ι σ C χ R)

def Safe (i : ι) (post : α → σ → Prop) : Prog C R α → σ → Prop
  | .ret a, s => ∀ s', D.rely i s s' → D.inv s' → post a s'
  | .call c k, s => ∀ s', D.rely i s s' → D.inv s' → D.pre i c s' ∧
      ∀ x r t, D.exec i c x s' = some (r, t) →
        D.inv t ∧ (∀ j, j ≠ i → D.rely j s' t) ∧ Safe i post (k r) t

variable {D}

theorem Safe.stable {i : ι} {post : α → σ → Prop} {p : Prog C R α} {s t : σ}
    (h : Safe D i post p s) (hr : D.rely i s t) : Safe D i post p t := by
  cases p with
  | ret a => exact fun s' h1 h2 => h s' (D.trans i s t s' hr h1) h2
  | call c k => exact fun s' h1 h2 => h s' (D.trans i s t s' hr h1) h2

theorem Safe.mono {i : ι} {post post' : α → σ → Prop} {p : Prog C R α} {s : σ}
    (h : Safe D i post p s) (hp : ∀ a s', D.inv s' → post a s' → post' a s') :
    Safe D i post' p s := by
  induction p generalizing s with
  | ret a => exact fun s' h1 h2 => hp a s' h2 (h s' h1 h2)
  | call c k ih =>
    intro s' h1 h2
    obtain ⟨hpre, hx⟩ := h s' h1 h2
    refine ⟨hpre, fun x r t he => ?_⟩
    obtain ⟨hI, hj, hk⟩ := hx x r t he
    exact ⟨hI, hj, ih r hk⟩

/-- **Sequential composition**: the rest of the program is safe wherever the first part may
end. -/
theorem Safe.bind {i : ι} {mid : α → σ → Prop} {post : β → σ → Prop} {p : Prog C R α}
    {f : α → Prog C R β} {s : σ} (h : Safe D i mid p s) (hI : D.inv s)
    (hf : ∀ a t, D.inv t → mid a t → Safe D i post (f a) t) :
    Safe D i post (p.bind f) s := by
  induction p generalizing s with
  | ret a => exact hf a s hI (h s (D.refl i s) hI)
  | call c k ih =>
    intro s' h1 h2
    obtain ⟨hpre, hx⟩ := h s' h1 h2
    refine ⟨hpre, fun x r t he => ?_⟩
    obtain ⟨hIt, hj, hk⟩ := hx x r t he
    exact ⟨hIt, hj, ih r hk hIt⟩

/-- a single call, whose result the others cannot spoil -/
theorem Safe.perform {i : ι} {c : C} {post : R c → σ → Prop} {s : σ}
    (stable : ∀ r t t', D.rely i t t' → post r t → post r t')
    (h : ∀ s', D.rely i s s' → D.inv s' → D.pre i c s' ∧ ∀ x r t, D.exec i c x s' = some (r, t) →
      D.inv t ∧ (∀ j, j ≠ i → D.rely j s' t) ∧ post r t) :
    Safe D i post (Prog.perform c) s := by
  intro s' h1 h2
  obtain ⟨hpre, hx⟩ := h s' h1 h2
  refine ⟨hpre, fun x r t he => ?_⟩
  obtain ⟨hI, hj, hr⟩ := hx x r t he
  exact ⟨hI, hj, fun t' h3 _ => stable r t t' h3 hr⟩

theorem Safe.lift {ε : Type} {i : ι} {mid : α → σ → Prop} {p : Prog C R α} {s : σ}
    (h : Safe D i mid p s) :
    Safe D i (fun r t => ∀ a, r = .ok a → mid a t)
      (ExceptT.lift p : ExceptT ε (Prog C R) α).run s := by
  show Safe D i _ (p.bind (.ret ∘ Except.ok)) s
  induction p generalizing s with
  | ret a =>
    intro s' h1 h2 b hb
    cases hb
    exact h s' h1 h2
  | call c k ih =>
    intro s' h1 h2
    obtain ⟨hpre, hx⟩ := h s' h1 h2
    refine ⟨hpre, fun x r t he => ?_⟩
    obtain ⟨hI, hj, hk⟩ := hx x r t he
    exact ⟨hI, hj, ih r hk⟩

/-- **Sequential composition of fallible programs** (`?`): only the result of a success
matters for the rest. -/
theorem Safe.andThen {ε : Type} {i : ι} {mid : α → σ → Prop} {p : ExceptT ε (Prog C R) α}
    {f : α → ExceptT ε (Prog C R) β} {s : σ}
    (h : Safe D i (fun r t => ∀ a, r = .ok a → mid a t) p.run s) (hI : D.inv s)
    (hf : ∀ a t, D.inv t → mid a t → Safe D i (fun _ _ => True) (f a).run t) :
    Safe D i (fun _ _ => True) (p >>= f).run s := by
  show Safe D i _ (p.run.bind (ExceptT.bindCont f)) s
  refine Safe.bind h hI fun r t hIt hm => ?_
  cases r with
  | ok a => exact hf a t hIt (hm a rfl)
  | error e => exact fun _ _ _ => trivial

/-! ## pools of threads -/

/-- a shared state and a program for every thread (`none`: the thread is idle) -/
structure Pool (ι σ C : Type) (R : C → Type) (α : Type) where
  mem : σ
  thread : ι → Option (Prog C R α)

namespace Pool

/-- the invariant holds and every running thread is safe -/
def AllSafe (D : Discipline ι σ C χ R) (post : α → σ → Prop) (s : Pool ι σ C R α) : Prop :=
  D.inv s.mem ∧ ∀ i p, s.thread i = some p → Safe D i post p s.mem

variable {post : α → σ → Prop}

theorem AllSafe.env {s : Pool ι σ C R α} {m : σ} (h : s.AllSafe D post) (hI : D.inv m)
    (hr : ∀ i, D.rely i s.mem m) : AllSafe D post { s with mem := m } :=
  ⟨hI, fun i p hp => (h.2 i p hp).stable (hr i)⟩

theorem AllSafe.pre {s : Pool ι σ C R α} (h : s.AllSafe D post) {i : ι} {c : C}
    {k : R c → Prog C R α} (hi : s.thread i = some (.call c k)) : D.pre i c s.mem :=
  (h.2 i _ hi s.mem (D.refl i s.mem) h.1).1

variable [DecidableEq ι]

/-- thread `i` makes its next call -/
def run (exec : ι → (c : C) → χ → σ → Option (R c × σ)) (s : Pool ι σ C R α) (i : ι) (x : χ) :
    Option (Pool ι σ C R α) :=
  match s.thread i with
  | some (.call c k) =>
    (exec i c x s.mem).map fun a =>
      { mem := a.2, thread := Function.update s.thread i (some (k a.1)) }
  | _ => none

theorem run_some {exec : ι → (c : C) → χ → σ → Option (R c × σ)} {s t : Pool ι σ C R α} {i : ι}
    {x : χ} (h : s.run exec i x = some t) :
    ∃ c k r m, s.thread i = some (.call c k) ∧ exec i c x s.mem = some (r, m) ∧
      t = { mem := m, thread := Function.update s.thread i (some (k r)) } := by
  unfold run at h
  split at h
  case h_2 => exact absurd h (by simp)
  case h_1 c k hi =>
    obtain ⟨⟨r, m⟩, he, rfl⟩ := Option.map_eq_some_iff.mp h
    exact ⟨c, k, r, m, hi, he, rfl⟩

theorem update_eq_some {B : Type} {f : ι → Option B} {i j : ι} {q : Option B} {b : B}
    (h : Function.update f i q j = some b) : (j = i ∧ q = some b) ∨ (j ≠ i ∧ f j = some b) := by
  by_cases e : j = i
  · subst e
    exact Or.inl ⟨rfl, (Function.update_self j q f).symm.trans h⟩
  · exact Or.inr ⟨e, (Function.update_of_ne e q f).symm.trans h⟩

/-- an idle thread starts (`some p`), or a thread stops (`none`) -/
theorem AllSafe.set {s : Pool ι σ C R α} (h : s.AllSafe D post) (i : ι)
    (q : Option (Prog C R α)) (hq : ∀ p, q = some p → Safe D i post p s.mem) :
    AllSafe D post { s with thread := Function.update s.thread i q } := by
  refine ⟨h.1, fun j p hp => ?_⟩
  rcases update_eq_some hp with ⟨rfl, he⟩ | ⟨_, hj⟩
  · exact hq p he
  · exact h.2 j p hj

/-- **One call of one thread keeps the pool safe.** -/
theorem AllSafe.run {s t : Pool ι σ C R α} {i : ι} {x : χ} (h : s.AllSafe D post)
    (hs : s.run D.exec i x = some t) : t.AllSafe D post := by
  obtain ⟨c, k, r, m, hi, he, rfl⟩ := run_some hs
  obtain ⟨_, hx⟩ := h.2 i _ hi s.mem (D.refl i s.mem) h.1
  obtain ⟨hI, hj, hk⟩ := hx x r m he
  refine ⟨hI, fun j p hp => ?_⟩
  rcases update_eq_some hp with ⟨rfl, hq⟩ | ⟨hne, hjp⟩
  · cases hq
    exact hk
  · exact (h.2 j p hjp).stable (hj j hne)

end Pool
end
end Lib
