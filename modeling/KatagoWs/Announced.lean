import KatagoWs.Lib.Simulation
import KatagoWs.Worker

/-!
# Announced: an executor that says when it is entered

An executor is a program of its own, and one that makes no call leaves no trace of having been
called.  The first call of an `announced` executor says that it was entered, and changes nothing
else, so that a run of the loops can be counted by its calls.

* `silent_handle`       without its announcements, a delivery is the delivery of the source;
* `announced_refines`   every run of the loops is one of the announced loops.
-/

set_option linter.unusedSectionVars false

namespace KatagoWs
open Lib

section
variable {ι E τ χ : Type} {A : E → Type} {α β : Type}

/-- what the calls of an announced executor answer; `none` says that it was entered -/
def Voiced (A : E → Type) : Option E → Type
  | none => Unit
  | some e => A e

def announced (analyze : Executor E A) : Executor (Option E) (Voiced A) :=
  fun jobId sgf humanProfile =>
    .call none fun _ => (analyze jobId sgf humanProfile).embed some fun _ a => a

def announcing (step : ExecutorStep ι E τ χ A) :
    ExecutorStep ι (Option E) τ (Option χ) (Voiced A)
  | _, none, none, t => some ((), t)
  | i, some e, some x, t => step i e x t
  | _, _, _, _ => none

def Call.enters : Call (Option E) → Bool
  | .exec none => true
  | _ => false

/-- the same program without the announcements -/
def silent : Prog (Call (Option E)) (Answer (Voiced A)) α → Prog (Call E) (Answer A) α
  | .ret a => .ret a
  | .call (.store c) k => .call (.store c) fun r => silent (k r)
  | .call (.startHeartbeat msgId) k => .call (.startHeartbeat msgId) fun r => silent (k r)
  | .call (.dropHeartbeat msgId) k => .call (.dropHeartbeat msgId) fun r => silent (k r)
  | .call (.exec none) k => silent (k ())
  | .call (.exec (some e)) k => .call (.exec e) fun r => silent (k r)

theorem silent_bind (p : Prog (Call (Option E)) (Answer (Voiced A)) α)
    (f : α → Prog (Call (Option E)) (Answer (Voiced A)) β) :
    silent (p.bind f) = (silent p).bind fun a => silent (f a) := by
  induction p with
  | ret a => rfl
  | call c k ih =>
    cases c with
    | exec e =>
      cases e with
      | none => exact ih ()
      | some e => exact congrArg (Prog.call _) (funext ih)
    | _ => exact congrArg (Prog.call _) (funext ih)

theorem silent_andThen {p : HandleM (Option E) (Voiced A) α} {q : HandleM E A α}
    {f : α → HandleM (Option E) (Voiced A) β} {g : α → HandleM E A β}
    (hp : silent p.run = q.run) (hf : ∀ a, silent (f a).run = (g a).run) :
    silent (p >>= f).run = (q >>= g).run := by
  show silent (p.run.bind (ExceptT.bindCont f)) = q.run.bind (ExceptT.bindCont g)
  rw [silent_bind, hp]
  refine congrArg _ (funext fun r => ?_)
  cases r with
  | ok a => exact hf a
  | error e => rfl

theorem silent_analysis (analyze : Executor E A) (msg : JobMessage) :
    silent (analysis (announced analyze) msg) = analysis analyze msg := by
  show silent (((analyze msg.jobId msg.sgf msg.humanProfile).embed some fun _ a => a).embed
    Call.exec fun _ a => a) = _
  unfold analysis
  induction analyze msg.jobId msg.sgf msg.humanProfile with
  | ret a => rfl
  | call e k ih => exact congrArg (Prog.call _) (funext ih)

theorem silent_handle (analyze : Executor E A) (cfg : WorkerConfig) (msg : Message) :
    silent (handle (announced analyze) cfg msg).run = (handle analyze cfg msg).run := by
  unfold handle
  dsimp only
  split
  case isTrue => exact silent_andThen rfl fun _ => rfl
  case isFalse =>
    refine silent_andThen rfl fun _ => silent_andThen rfl fun _ => ?_
    refine silent_andThen ?_ fun result => silent_andThen rfl fun _ => ?_
    · show silent ((analysis (announced analyze) msg.message).bind _) = _
      rw [silent_bind, silent_analysis]
      rfl
    · cases result with
      | ok value => exact silent_andThen rfl fun _ => rfl
      | error err => rfl

/-! ## every run of the loops is one of the announced loops -/

variable [DecidableEq ι]

def silentPool (s : WorkerPool ι (Option E) τ (Voiced A)) : WorkerPool ι E τ A :=
  ⟨s.mem, Option.map silent ∘ s.thread⟩

theorem silentPool_update (s : WorkerPool ι (Option E) τ (Voiced A)) (m : Store τ) (i : ι)
    (q : Option (Prog (Call (Option E)) (Answer (Voiced A)) (Except AppError Unit))) :
    silentPool { mem := m, thread := Function.update s.thread i q }
      = { mem := m, thread := Function.update (silentPool s).thread i (q.map silent) } :=
  congrArg (Pool.mk m) (Function.comp_update (Option.map silent) s.thread i q)

def CallOutcome.announced : CallOutcome χ → CallOutcome (Option χ)
  | .ok => .ok
  | .err msg => .err msg
  | .lost msg => .lost msg
  | .exec x => .exec (some x)

theorem announce_all (analyze : Executor E A) (cfg : WorkerConfig)
    (step : ExecutorStep ι E τ χ A) (i : ι) (s : WorkerPool ι (Option E) τ (Voiced A)) :
    ∃ as t, (workerSys (announced analyze) cfg (announcing step)).exec s as = some t ∧
      silentPool t = silentPool s ∧ ∀ k, t.thread i ≠ some (.call (.exec none) k) := by
  cases hi : s.thread i with
  | none => exact ⟨[], s, rfl, rfl, fun k hk => by rw [hi] at hk; cases hk⟩
  | some p =>
    induction p generalizing s with
    | ret a => exact ⟨[], s, rfl, rfl, fun k hk => by rw [hi] at hk; cases hk⟩
    | call c k ih =>
      by_cases hc : c = .exec none
      case neg =>
        refine ⟨[], s, rfl, rfl, fun k' hk => ?_⟩
        rw [hi] at hk
        cases hk
        exact hc rfl
      case pos =>
        subst hc
        obtain ⟨as, t, ht, hsilent, hnot⟩ := ih ()
          { mem := s.mem, thread := Function.update s.thread i (some (k ())) }
          (Function.update_self _ _ _)
        refine ⟨.call i (.exec none) :: as, t, ?_, hsilent.trans ?_, hnot⟩
        · show (s.run _ i _).bind _ = _
          unfold Pool.run
          rw [hi]
          exact ht
        · have hself : some (silent (k ())) = (silentPool s).thread i := by
            show _ = (s.thread i).map silent
            rw [hi]
            rfl
          rw [silentPool_update]
          exact congrArg (Pool.mk s.mem) (Function.update_eq_self_iff.mpr hself)

variable {analyze : Executor E A} {cfg : WorkerConfig} {step : ExecutorStep ι E τ χ A}

theorem StoreCall.exec_announced (c : StoreCall) (x : CallOutcome χ) (s : Store τ) :
    c.exec x.announced s = c.exec x s := by
  unfold StoreCall.exec
  cases x <;> cases c.apply s <;> rfl

theorem announced_run {s : WorkerPool ι (Option E) τ (Voiced A)} {t : WorkerPool ι E τ A}
    {i : ι} {x : CallOutcome χ} (hnot : ∀ k, s.thread i ≠ some (.call (.exec none) k))
    (h : (silentPool s).run (Call.step step) i x = some t) :
    ∃ s', s.run (Call.step (announcing step)) i x.announced = some s' ∧ silentPool s' = t := by
  obtain ⟨c, k, r, m, hi, he, rfl⟩ := Pool.run_some h
  obtain ⟨p, hp, hsilent⟩ := Option.map_eq_some_iff.mp hi
  -- it is enough to say what the announced loop calls, and how it goes on
  have key : ∀ c' k' r', s.thread i = some (.call c' k') →
      Call.step (announcing step) i c' x.announced s.mem = some (r', m) →
      silent (k' r') = k r → ∃ s', s.run (Call.step (announcing step)) i x.announced = some s' ∧
        silentPool s' = ⟨m, Function.update (silentPool s).thread i (some (k r))⟩ := by
    intro c' k' r' hp' he' hk
    refine ⟨{ mem := m, thread := Function.update s.thread i (some (k' r')) }, ?_, ?_⟩
    · unfold Pool.run
      rw [hp']
      exact congrArg (Option.map _) he'
    · rw [silentPool_update, ← hk]
      rfl
  cases p with
  | ret a => cases hsilent
  | call c' k' =>
    cases c' with
    | exec e =>
      cases e with
      | none => exact absurd hp (hnot k')
      | some e =>
        cases hsilent
        refine key _ k' r hp ?_ rfl
        cases x <;> exact he
    | store c =>
      cases hsilent
      exact key _ k' r hp ((c.exec_announced x s.mem).trans he) rfl
    | _ =>
      cases hsilent
      refine key _ k' r hp ?_ rfl
      cases x <;> exact he

theorem announced_refines : (workerSys analyze cfg step).Refines
    (workerSys (announced analyze) cfg (announcing step)) (fun _ _ => True)
    fun s t => silentPool t = s := by
  refine ⟨fun s ⟨h1, h2, h3, h4⟩ => ?_, ?_⟩
  · refine ⟨⟨s.mem, fun _ => none⟩, ⟨h1, h2, h3, fun _ => rfl⟩, ?_⟩
    exact congrArg (Pool.mk s.mem) (funext fun i => (h4 i).symm)
  rintro _ a s' t rfl - hs
  cases a with
  | submit jobId job =>
    obtain ⟨m, hm, rfl⟩ := Option.map_eq_some_iff.mp hs
    refine ⟨[.submit jobId job], { t with mem := m }, Sys.exec_one ?_, rfl⟩
    exact congrArg (Option.map _) hm
  | submitMany jobs =>
    obtain ⟨m, hm, rfl⟩ := Option.map_eq_some_iff.mp hs
    refine ⟨[.submitMany jobs], { t with mem := m }, Sys.exec_one ?_, rfl⟩
    exact congrArg (Option.map _) hm
  | lease i msgId =>
    -- the loop may still have to announce what comes before its return
    obtain ⟨as, u, hu, hsilent, hnot⟩ := announce_all analyze cfg step i t
    rw [← hsilent] at hs
    replace hs : workerStep analyze cfg step (silentPool u) (.lease i msgId) = some s' := hs
    obtain ⟨hidle, msg, queue, hr, rfl⟩ := lease_some hs
    have hidle' : idle (u.thread i) = true := by
      replace hidle : idle ((u.thread i).map silent) = true := hidle
      cases hi : u.thread i with
      | none => rfl
      | some p =>
        rw [hi] at hidle
        cases p with
        | ret a => rfl
        | call c k =>
          cases c with
          | exec e =>
            cases e with
            | none => exact absurd hi (hnot k)
            | some e => cases hidle
          | _ => cases hidle
    refine ⟨as ++ [.lease i msgId], ⟨{ u.mem with queue },
      Function.update u.thread i (some (handle (announced analyze) cfg msg).run)⟩, ?_, ?_⟩
    · rw [Sys.exec_append, hu]
      refine Sys.exec_one ?_
      show (if idle (u.thread i) = true then _ else none) = _
      rw [if_pos hidle']
      exact congrArg (Option.map _) hr
    · rw [silentPool_update, Option.map_some, silent_handle]
      rfl
  | leaseLost msgId =>
    obtain ⟨⟨msg, queue⟩, hr, rfl⟩ := Option.map_eq_some_iff.mp hs
    refine ⟨[.leaseLost msgId], { t with mem := { t.mem with queue } }, Sys.exec_one ?_, rfl⟩
    exact congrArg (Option.map _) hr
  | call i x =>
    obtain ⟨as, u, hu, hsilent, hnot⟩ := announce_all analyze cfg step i t
    rw [← hsilent] at hs
    obtain ⟨s'', hrun, rfl⟩ := announced_run hnot hs
    refine ⟨as ++ [.call i x.announced], s'', ?_, rfl⟩
    rw [Sys.exec_append, hu]
    exact Sys.exec_one hrun
  | crash i =>
    cases hs
    exact ⟨[.crash i], _, Sys.exec_one rfl, silentPool_update t t.mem i none⟩
  | extendVt msgId => cases hs; exact ⟨[.extendVt msgId], _, Sys.exec_one rfl, rfl⟩
  | lapse msgId => cases hs; exact ⟨[.lapse msgId], _, Sys.exec_one rfl, rfl⟩
  | tick now => cases hs; exact ⟨[.tick now], _, Sys.exec_one rfl, rfl⟩
  | executor x => cases hs; exact ⟨[.executor x], _, Sys.exec_one rfl, rfl⟩

end
end KatagoWs
