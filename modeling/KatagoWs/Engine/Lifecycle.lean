import KatagoWs.Engine.Owner
import KatagoWs.Lib.Simulation

/-!
# When the engine counts as ready, and how often it is relaunched

The owner publishes where its process is in its life, and `wait_ready` reads that.  A process
that exits is relaunched only when the engine is supervised and has been ready before; the waits
double while the relaunches do not get going.

* `KataGo.waitReady`   what a caller of `wait_ready` gets, if anything yet;
* `failures`           the relaunches tried since a process that was ready last exited;
* `relaunch_policy`    the published status, the relaunches and the waits, in any run.
-/

namespace KatagoWs
open Lib

/-- `wait_ready`: `none` while it waits for the status to leave `Starting` -/
def KataGo.waitReady (s : Owner) : Option (AppResult Unit) :=
  match s.status with
  | .starting =>
    -- the task and its end of the channel are gone
    if s.phase = .ended then some (.error (.modelLoad "katago engine stopped")) else none
  | .exited report =>
    some (.error (.modelLoad s!"the engine exited during startup: {report}"))
  | .ready => some (.ok ())

/-- the relaunches tried since a process that was ready last exited -/
def failures (s : Owner) (a : OwnerAction) (n : Nat) : Nat :=
  match a with
  | .exit _ => if s.status = .ready then 0 else n
  | .wake _ => n + 1
  | _ => n

def countedSys (serde : Serde) (supervised : Bool) : Sys (Owner × Nat) OwnerAction :=
  (ownerSys serde supervised).withHistory 0 failures

structure Owner.Policy (s : Owner) (n : Nat) : Prop where
  /-- a process is being served that has announced it is ready -/
  ready : s.status = .ready → s.started = true ∧ s.awaitsReady = false ∧
    (s.phase = .serve ∨ s.phase = .ended ∧ s.handles = false)
  starting : s.phase = .serve → s.awaitsReady = true → s.status = .starting
  serving : s.phase = .serve → s.status = .starting ∨ s.status = .ready
  relaunched : 0 < s.process → s.supervised = true ∧ s.started = true
  waiting : s.phase = .waitOut →
    s.supervised = true ∧ s.started = true ∧ ∃ report, s.status = .exited report
  stopped : s.phase = .ended → (∃ report, s.status = .exited report) ∨ s.handles = false
  backoff : s.phase ≠ .ended →
    s.backoff = min (RESTART_BACKOFF_MIN * 2 ^ n) RESTART_BACKOFF_MAX

theorem exited_ne_stopped (report : String) :
    s!"the engine exited during startup: {report}" ≠ "katago engine stopped" := by
  intro h
  have hlist := congrArg String.toList h
  have htext : (s!"the engine exited during startup: {report}").toList
      = "the engine exited during startup: ".toList ++ report.toList := by
    simp [toString]
  rw [htext] at hlist
  cases hlist

theorem backoff_doubles (a m : Nat) : min (min a m * 2) m = min (a * 2) m := by
  omega

section
variable {serde : Serde} {s t : Owner} {n : Nat}

theorem Owner.Policy.initial (supervised : Bool) : (Owner.initial supervised).Policy 0 where
  ready h := by cases h
  starting _ _ := rfl
  serving _ := Or.inl rfl
  relaunched h := absurd h (lt_irrefl 0)
  waiting h := by cases h
  stopped h := by cases h
  backoff _ := rfl

theorem Owner.Policy.of_eq (h : s.Policy n) (hstarted : t.started = s.started)
    (hsuper : t.supervised = s.supervised) (hstatus : t.status = s.status)
    (hphase : t.phase = s.phase) (hawaits : t.awaitsReady = s.awaitsReady)
    (hhandles : s.handles = false → t.handles = false) (hproc : t.process = s.process)
    (hback : t.backoff = s.backoff) : t.Policy n := by
  constructor
  · rw [hstatus, hstarted, hawaits, hphase]
    intro hr
    obtain ⟨h1, h2, h3⟩ := h.ready hr
    exact ⟨h1, h2, h3.imp_right fun he => ⟨he.1, hhandles he.2⟩⟩
  · rw [hphase, hawaits, hstatus]
    exact h.starting
  · rw [hphase, hstatus]
    exact h.serving
  · rw [hproc, hsuper, hstarted]
    exact h.relaunched
  · rw [hphase, hsuper, hstarted, hstatus]
    exact h.waiting
  · rw [hphase, hstatus]
    exact fun he => (h.stopped he).imp_right hhandles
  · rw [hphase, hback]
    exact h.backoff

theorem Owner.Policy.over_as (h : s.Policy n) {m : Nat} {report : String}
    (hphase : t.phase = .ended) (hproc : t.process = s.process)
    (hsuper : t.supervised = s.supervised) (hstarted : t.started = s.started)
    (hstatus : t.status = .exited report) : t.Policy m where
  ready hr := by
    rw [hstatus] at hr
    cases hr
  starting hs := by
    rw [hphase] at hs
    cases hs
  serving hs := by
    rw [hphase] at hs
    cases hs
  relaunched hp := by
    rw [hproc] at hp
    rw [hsuper, hstarted]
    exact h.relaunched hp
  waiting hw := by
    rw [hphase] at hw
    cases hw
  stopped _ := Or.inl ⟨report, hstatus⟩
  backoff hne := absurd hphase hne

theorem Owner.Policy.left (h : s.Policy n) (hgone : s.handles = false) : s.close.Policy n where
  ready hr := by
    obtain ⟨h1, h2, -⟩ := h.ready hr
    exact ⟨h1, h2, Or.inr ⟨rfl, hgone⟩⟩
  starting hs := by cases hs
  serving hs := by cases hs
  relaunched := h.relaunched
  waiting hw := by cases hw
  stopped _ := Or.inr hgone
  backoff hne := absurd rfl hne

theorem Owner.Policy.exit (h : s.Policy n) {report : ExitReport} (hs : s.exit report = some t) :
    t.Policy (failures s (.exit report) n) := by
  unfold Owner.exit at hs
  obtain ⟨hl, hs⟩ := Option.ite_none_right_eq_some.mp hs
  have hserve : s.phase = .serve := by
    unfold Owner.loops at hl
    rw [Bool.and_eq_true] at hl
    exact eq_of_beq hl.1
  by_cases hstay : (!s.supervised || !s.started) = true
  · simp only [hstay, if_true, Option.some.injEq] at hs
    rw [← hs]
    exact h.over_as rfl rfl rfl rfl rfl
  · simp only [if_neg hstay, Option.some.injEq] at hs
    rw [Bool.or_eq_true, not_or] at hstay
    have hsuper : s.supervised = true := by
      cases hv : s.supervised with
      | true => rfl
      | false =>
        rw [hv] at hstay
        exact absurd rfl hstay.1
    have hstarted : s.started = true := by
      cases hv : s.started with
      | true => rfl
      | false =>
        rw [hv] at hstay
        exact absurd rfl hstay.2
    rw [← hs]
    constructor
    · exact fun hr => by cases hr
    · exact fun hp => by cases hp
    · exact fun hp => by cases hp
    · exact h.relaunched
    · exact fun _ => ⟨hsuper, hstarted, _, rfl⟩
    · exact fun hp => by cases hp
    · intro _
      show (if s.status = .ready then RESTART_BACKOFF_MIN else s.backoff)
        = min (RESTART_BACKOFF_MIN * 2 ^ (if s.status = .ready then 0 else n)) RESTART_BACKOFF_MAX
      by_cases hr : s.status = .ready
      · rw [if_pos hr, if_pos hr]
        rfl
      · rw [if_neg hr, if_neg hr]
        exact h.backoff (by rw [hserve]; decide)

/-- a wait is over: the next one is twice as long, up to the bound -/
theorem Owner.Policy.wake (h : s.Policy n) {launched : Bool} (hs : s.wake launched = some t) :
    t.Policy (n + 1) := by
  unfold Owner.wake at hs
  obtain ⟨hwait, hs⟩ := Option.ite_none_right_eq_some.mp hs
  obtain ⟨hsuper, hstarted, report, hstatus⟩ := h.waiting hwait
  have hback : min (s.backoff * 2) RESTART_BACKOFF_MAX
      = min (RESTART_BACKOFF_MIN * 2 ^ (n + 1)) RESTART_BACKOFF_MAX := by
    rw [h.backoff (by rw [hwait]; decide), backoff_doubles, Nat.pow_succ, Nat.mul_assoc]
  cases launched with
  | true =>
    cases hs
    constructor
    · exact fun hr => by cases hr
    · exact fun _ _ => rfl
    · exact fun _ => Or.inl rfl
    · exact fun _ => ⟨hsuper, hstarted⟩
    · exact fun hp => by cases hp
    · exact fun hp => by cases hp
    · exact fun _ => hback
  | false =>
    cases hs
    constructor
    · intro hr
      change s.status = .ready at hr
      rw [hstatus] at hr
      cases hr
    · intro hp
      change s.phase = .serve at hp
      rw [hwait] at hp
      cases hp
    · intro hp
      change s.phase = .serve at hp
      rw [hwait] at hp
      cases hp
    · exact fun _ => ⟨hsuper, hstarted⟩
    · exact fun _ => ⟨hsuper, hstarted, report, hstatus⟩
    · intro hp
      change s.phase = .ended at hp
      rw [hwait] at hp
      cases hp
    · exact fun _ => hback

theorem Owner.Policy.ready_signal (h : s.Policy n) {announced : Bool}
    (hs : s.ready announced = some t) : t.Policy n := by
  unfold Owner.ready at hs
  obtain ⟨hl, hs⟩ := Option.ite_none_right_eq_some.mp hs
  obtain ⟨hl, hawaits⟩ := (Bool.and_eq_true ..).mp hl
  have hserve : s.phase = .serve := by
    unfold Owner.loops at hl
    rw [Bool.and_eq_true] at hl
    exact eq_of_beq hl.1
  have hstarting := h.starting hserve hawaits
  cases hs
  constructor
  · intro hr
    cases announced with
    | true => exact ⟨rfl, rfl, Or.inl hserve⟩
    | false =>
      change s.status = .ready at hr
      rw [hstarting] at hr
      cases hr
  · exact fun _ hw => by cases hw
  · intro _
    cases announced with
    | true => exact Or.inr rfl
    | false => exact Or.inl hstarting
  · intro hp
    refine ⟨(h.relaunched hp).1, ?_⟩
    show (announced || s.started) = true
    rw [(h.relaunched hp).2, Bool.or_true]
  · intro hp
    change s.phase = .waitOut at hp
    rw [hserve] at hp
    cases hp
  · intro hp
    change s.phase = .ended at hp
    rw [hserve] at hp
    cases hp
  · exact h.backoff

theorem Owner.Policy.recv (h : s.Policy n) {write : Option String}
    (hs : s.recv serde write = some t) : t.Policy n := by
  unfold Owner.recv at hs
  split at hs
  · cases hs
  · rename_i c rest hchan
    by_cases hl : s.loops = true
    · rw [if_pos hl] at hs
      cases hs
      cases c with
      | analyze cmd => exact h.of_eq rfl rfl rfl rfl rfl (fun hh => hh) rfl rfl
      | shutdown ack => exact h.over_as rfl rfl rfl rfl rfl
    · rw [if_neg hl] at hs
      obtain ⟨-, hs⟩ := Option.ite_none_right_eq_some.mp hs
      cases hs
      cases c with
      | analyze cmd => exact h.of_eq rfl rfl rfl rfl rfl (fun hh => hh) rfl rfl
      | shutdown ack => exact h.over_as rfl rfl rfl rfl rfl

theorem Owner.Policy.closed (h : s.Policy n) (hs : s.closed = some t) : t.Policy n := by
  unfold Owner.closed at hs
  obtain ⟨hopen, hs⟩ := Option.ite_none_left_eq_some.mp hs
  have hgone : s.handles = false := by
    rw [Bool.or_eq_true, not_or] at hopen
    exact Bool.eq_false_iff.mpr hopen.1
  by_cases hl : s.loops = true
  · rw [if_pos hl] at hs
    cases hs
    exact h.left hgone
  · rw [if_neg hl] at hs
    obtain ⟨-, hs⟩ := Option.ite_none_right_eq_some.mp hs
    cases hs
    exact h.over_as rfl rfl rfl rfl rfl

theorem Owner.Policy.step (h : s.Policy n) {a : OwnerAction} (hs : s.step serde a = some t) :
    t.Policy (failures s a n) := by
  cases a with
  | send call =>
    change s.send call = some t at hs
    unfold Owner.send at hs
    obtain ⟨-, hs⟩ := Option.ite_none_right_eq_some.mp hs
    cases hcmd : call.cmd s.calls with
    | none =>
      rw [hcmd] at hs
      cases hs
      exact h
    | some cmd =>
      rw [hcmd] at hs
      cases hs
      exact h.of_eq rfl rfl rfl rfl rfl (fun hh => hh) rfl rfl
  | askShutdown ack =>
    change (if _ then _ else _) = some t at hs
    obtain ⟨-, hs⟩ := Option.ite_none_right_eq_some.mp hs
    cases hs
    exact h.of_eq rfl rfl rfl rfl rfl (fun hh => hh) rfl rfl
  | dropHandles =>
    change (if _ then _ else _) = some t at hs
    obtain ⟨-, hs⟩ := Option.ite_none_right_eq_some.mp hs
    cases hs
    exact h.of_eq rfl rfl rfl rfl rfl (fun _ => rfl) rfl rfl
  | drain write =>
    change s.drainOne serde write = some t at hs
    unfold Owner.drainOne at hs
    split at hs
    · cases hs
      exact h.of_eq rfl rfl rfl rfl rfl (fun hh => hh) rfl rfl
    · cases hs
  | recv write => exact h.recv hs
  | closed => exact h.closed hs
  | ready announced => exact h.ready_signal hs
  | line text =>
    change (if _ then _ else _) = some t at hs
    obtain ⟨-, hs⟩ := Option.ite_none_right_eq_some.mp hs
    cases hs
    exact h.of_eq rfl rfl rfl rfl rfl (fun hh => hh) rfl rfl
  | exit report => exact h.exit hs
  | wake launched => exact h.wake hs

/-- **The relaunch policy**, in every run: `Ready` is published only while a process that has
announced it is served, or when nobody is left to ask; only a supervised engine that has been
ready is ever relaunched; while it is down the status tells why, and the wait before the next
attempt is a second, doubled for each attempt since a healthy process exited, at most a minute.
A caller of `wait_ready` is told of a start only by a process that is up, and never that the
engine merely stopped. -/
theorem relaunch_policy {supervised : Bool}
    (h : (countedSys serde supervised).Reachable (s, n)) :
    s.Policy n ∧
    (s.handles = true →
      (KataGo.waitReady s = some (.ok ()) ↔ s.status = .ready ∧ s.phase = .serve) ∧
      KataGo.waitReady s ≠ some (.error (.modelLoad "katago engine stopped"))) := by
  have hP : s.Policy n := by
    refine h.rule (I := fun p : Owner × Nat => p.1.Policy p.2) ?_ ?_
    · rintro ⟨s, n⟩ ⟨hinit, hstart⟩
      change s = Owner.initial supervised at hinit
      change n = 0 at hstart
      rw [hinit, hstart]
      exact .initial supervised
    · rintro ⟨s, n⟩ a ⟨t, m⟩ hI hs
      obtain ⟨hstep, hnote⟩ := Sys.withHistory_step hs
      change m = failures s a n at hnote
      rw [hnote]
      exact Owner.Policy.step hI hstep
  refine ⟨hP, fun hopen => ⟨?_, ?_⟩⟩
  · unfold KataGo.waitReady
    cases hstatus : s.status with
    | starting =>
      constructor
      · intro hw
        dsimp only at hw
        split at hw <;> cases hw
      · rintro ⟨hr, -⟩
        cases hr
    | exited report =>
      constructor
      · intro hw
        cases hw
      · rintro ⟨hr, -⟩
        cases hr
    | ready =>
      refine ⟨fun _ => ⟨rfl, ?_⟩, fun _ => rfl⟩
      obtain ⟨-, -, hserve | ⟨-, hgone⟩⟩ := hP.ready hstatus
      · exact hserve
      · rw [hopen] at hgone
        cases hgone
  · unfold KataGo.waitReady
    cases hstatus : s.status with
    | starting =>
      dsimp only
      by_cases hend : s.phase = .ended
      · rcases hP.stopped hend with ⟨report, he⟩ | hgone
        · rw [hstatus] at he
          cases he
        · rw [hopen] at hgone
          cases hgone
      · rw [if_neg hend]
        exact fun hw => by cases hw
    | exited report =>
      intro hw
      simp only [Option.some.injEq, Except.error.injEq, AppError.modelLoad.injEq] at hw
      exact exited_ne_stopped report hw
    | ready => exact fun hw => by cases hw

end

/-! A relaunch fails, the next one starts a process that exits before it is ready: the third wait
lasts four seconds. -/

def restartActions : List OwnerAction :=
  [.ready true, .exit ⟨"signal: 9", []⟩, .wake false, .wake true, .exit ⟨"exit status: 1", []⟩]

def restartState : Owner × Nat :=
  ((countedSys oneMoveSerde true).exec (Owner.initial true, 0) restartActions).getD
    (Owner.initial true, 0)

theorem relaunch_policy_restart :
    restartState.1.Policy restartState.2 ∧ restartState.1.backoff = 4 ∧
      KataGo.waitReady restartState.1
        = some (.error (.modelLoad "the engine exited during startup: exit status: 1")) :=
  ⟨(relaunch_policy (show (countedSys oneMoveSerde true).Reachable restartState from
    ⟨(Owner.initial true, 0), restartActions, ⟨rfl, rfl⟩, rfl⟩)).1, rfl, rfl⟩

end KatagoWs
