import KatagoWs.Engine.Owner

/-!
# Crashes and relaunches

A query that arrives while the engine is down is held for the next process.  With the accounts
of `Owner.lean`:

* `Owner.Order`       those held for a process are given to it first and in order;
* `Owner.Inv.step`    the accounts, single submission and the order are kept by every step;
* `Owner.HeldFate`    what can have become of the queries held for a process;
* `no_query_lost`     no query is lost or answered twice, in any run.
-/

namespace KatagoWs
open Lib Lib.Batches

/-! ## the queries held for a relaunch go first -/

/-- what became of the queries held for a process that was never launched -/
def Owner.Fate (s : Owner) : Prop :=
  (∀ tx ∈ heldFor s.held (s.process + 1),
      (tx, (.error "katago engine shut down" : Reply)) ∈ s.demux.replies) ∨
    s.handles = false ∧ ∀ tx ∈ heldFor s.held (s.process + 1), tx ∈ s.dropped

structure Owner.Order (s : Owner) : Prop where
  past : ∀ k, k < s.process ∨ k = s.process ∧ s.phase ≠ .serve →
    heldFor s.held k <+: sentTo s.submitted k
  serving : s.phase = .serve →
    (s.backlog = [] ∧ heldFor s.held s.process <+: sentTo s.submitted s.process) ∨
      heldFor s.held s.process = sentTo s.submitted s.process ++ backlogTxs s.backlog
  next : s.phase = .serve → heldFor s.held (s.process + 1) = []
  waiting : s.phase = .waitOut → heldFor s.held (s.process + 1) = backlogTxs s.backlog
  fate : s.phase = .ended → s.Fate
  later : ∀ k, s.process + 1 < k → heldFor s.held k = []

theorem le_of_past {k n : Nat} {p : Prop} (h : k < n ∨ k = n ∧ p) : k ≤ n := by
  rcases h with h | ⟨h, -⟩
  · exact Nat.le_of_lt h
  · exact Nat.le_of_eq h

section
variable {serde : Serde} {s t : Owner}

theorem Owner.Order.of_eq (h : s.Order) (hheld : t.held = s.held)
    (hsub : t.submitted = s.submitted) (hproc : t.process = s.process) (hphase : t.phase = s.phase)
    (hback : t.backlog = s.backlog) (hfate : s.phase = .ended → s.Fate → t.Fate) : t.Order := by
  constructor
  · rw [hheld, hsub, hproc, hphase]
    exact h.past
  · rw [hheld, hsub, hproc, hphase, hback]
    exact h.serving
  · rw [hheld, hproc, hphase]
    exact h.next
  · rw [hheld, hproc, hphase, hback]
    exact h.waiting
  · rw [hphase]
    exact fun hp => hfate hp (h.fate hp)
  · rw [hheld, hproc]
    exact h.later

/-- Once the backlog is empty, those held for the process are the first it was given. -/
theorem Owner.Order.looping (h : s.Order) (hserve : s.phase = .serve) (hback : s.backlog = []) :
    heldFor s.held s.process <+: sentTo s.submitted s.process := by
  rcases h.serving hserve with ⟨-, hp⟩ | heq
  · exact hp
  · have hall : heldFor s.held s.process = sentTo s.submitted s.process := by
      rw [heq, hback]
      exact List.append_nil _
    refine ⟨[], ?_⟩
    rw [List.append_nil]
    exact hall

theorem Owner.Order.upTo (h : s.Order) (hserve : s.phase = .serve) (hback : s.backlog = [])
    {k : Nat} (hk : k ≤ s.process) : heldFor s.held k <+: sentTo s.submitted k := by
  rcases Nat.lt_or_eq_of_le hk with hlt | heq
  · exact h.past k (Or.inl hlt)
  · rw [heq]
    exact h.looping hserve hback

theorem Owner.Order.past_submit (h : s.Order) (hserve : s.phase = .serve) {e : Sent}
    (he : e.process = s.process) {k : Nat} (hk : k < s.process ∨ k = s.process ∧ s.phase ≠ .serve) :
    heldFor s.held k <+: sentTo (s.submitted ++ [e]) k := by
  have hlt : k < s.process := by
    rcases hk with hk | ⟨-, hne⟩
    · exact hk
    · exact absurd hserve hne
  have hne : ¬ e.process = k := by
    rw [he]
    exact Nat.ne_of_gt hlt
  rw [sentTo_append, if_neg hne, List.append_nil]
  exact h.past k (Or.inl hlt)

theorem Owner.Order.submit (h : s.Order) (hserve : s.phase = .serve) (hback : s.backlog = [])
    (cmd : AnalyzeCmd) (write : Option String) : (s.submit serde cmd write).Order where
  past := fun _ hk => h.past_submit hserve rfl hk
  serving := by
    intro _
    refine Or.inl ⟨hback, ?_⟩
    show heldFor s.held s.process <+: sentTo (s.submitted ++ [_]) s.process
    rw [sentTo_append]
    exact (h.looping hserve hback).trans (List.prefix_append _ _)
  next := h.next
  waiting := fun hw => absurd (hserve.symm.trans hw) (by decide)
  fate := fun he => absurd (hserve.symm.trans he) (by decide)
  later := h.later

theorem Owner.Order.drain (h : s.Order) (hserve : s.phase = .serve) {cmd : AnalyzeCmd}
    {rest : List AnalyzeCmd} (hback : s.backlog = cmd :: rest) (write : Option String) :
    ({ s with backlog := rest }.submit serde cmd write).Order where
  past := fun _ hk => h.past_submit hserve rfl hk
  serving := by
    intro _
    rcases h.serving hserve with ⟨hempty, -⟩ | heq
    · rw [hback] at hempty
      cases hempty
    · right
      show heldFor s.held s.process = sentTo (s.submitted ++ [_]) s.process ++ backlogTxs rest
      rw [heq, hback, sentTo_append, if_pos rfl, List.append_assoc]
      rfl
  next := h.next
  waiting := fun hw => absurd (hserve.symm.trans hw) (by decide)
  fate := fun he => absurd (hserve.symm.trans he) (by decide)
  later := h.later

theorem Owner.Order.hold (h : s.Order) (hwait : s.phase = .waitOut) (cmd : AnalyzeCmd)
    (rest : List Cmd) : ({ s with chan := rest }.waitCmd (.analyze cmd)).Order where
  past := by
    intro k hk
    have hle : k ≤ s.process := le_of_past hk
    show heldFor (s.held ++ [_]) k <+: sentTo s.submitted k
    rw [heldFor_append, if_neg (Nat.ne_of_gt (Nat.lt_succ_of_le hle)), List.append_nil]
    refine h.past k ?_
    rcases hk with hk | ⟨hk, -⟩
    · exact Or.inl hk
    · exact Or.inr ⟨hk, by rw [hwait]; decide⟩
  serving := fun hs => absurd (hwait.symm.trans hs) (by decide)
  next := fun hs => absurd (hwait.symm.trans hs) (by decide)
  waiting := by
    intro _
    show heldFor (s.held ++ [_]) (s.process + 1) = backlogTxs (s.backlog ++ [cmd])
    rw [heldFor_append, if_pos rfl, h.waiting hwait]
    unfold backlogTxs
    rw [List.map_append]
    rfl
  fate := fun he => absurd (hwait.symm.trans he) (by decide)
  later := by
    intro k hk
    have hgt : s.process + 1 < k := hk
    show heldFor (s.held ++ [_]) k = []
    rw [heldFor_append, if_neg (Nat.ne_of_lt hgt), List.append_nil]
    exact h.later k hgt

theorem Owner.Order.exit (h : s.Order) (hserve : s.phase = .serve) (hback : s.backlog = [])
    (ht : t.held = s.held ∧ t.submitted = s.submitted ∧ t.process = s.process ∧
      t.backlog = s.backlog ∧ t.phase = .waitOut) : t.Order := by
  obtain ⟨hheld, hsub, hproc, htback, hphase⟩ := ht
  constructor
  · rw [hheld, hsub, hproc]
    intro k hk
    exact h.upTo hserve hback (le_of_past hk)
  · exact fun hs => absurd (hphase.symm.trans hs) (by decide)
  · exact fun hs => absurd (hphase.symm.trans hs) (by decide)
  · intro _
    rw [hheld, hproc, h.next hserve, htback, hback]
    rfl
  · exact fun he => absurd (hphase.symm.trans he) (by decide)
  · rw [hheld, hproc]
    exact h.later

theorem Owner.Order.close (h : s.Order)
    (hloop : s.phase = .serve → s.backlog = [])
    (ht : t.held = s.held ∧ t.submitted = s.submitted ∧ t.process = s.process ∧ t.phase = .ended)
    (hfate : s.phase ≠ .serve → t.Fate) : t.Order := by
  obtain ⟨hheld, hsub, hproc, hphase⟩ := ht
  constructor
  · rw [hheld, hsub, hproc]
    intro k hk
    have hle : k ≤ s.process := le_of_past hk
    by_cases hserve : s.phase = .serve
    · exact h.upTo hserve (hloop hserve) hle
    · rcases Nat.lt_or_eq_of_le hle with hlt | heq
      · exact h.past k (Or.inl hlt)
      · exact h.past k (Or.inr ⟨heq, hserve⟩)
  · exact fun hs => absurd (hphase.symm.trans hs) (by decide)
  · exact fun hs => absurd (hphase.symm.trans hs) (by decide)
  · exact fun hw => absurd (hphase.symm.trans hw) (by decide)
  · intro _
    by_cases hserve : s.phase = .serve
    · -- nothing was held
      left
      rw [hheld, hproc, h.next hserve]
      exact fun _ htx => absurd htx List.not_mem_nil
    · exact hfate hserve
  · rw [hheld, hproc]
    exact h.later

theorem Owner.Order.relaunch (h : s.Order) (hone : s.Once) (hwait : s.phase = .waitOut)
    (ht : t.held = s.held ∧ t.submitted = s.submitted ∧ t.process = s.process + 1 ∧
      t.backlog = s.backlog ∧ t.phase = .serve) : t.Order := by
  obtain ⟨hheld, hsub, hproc, hback, hphase⟩ := ht
  have hnone := hone.sentTo_none (Nat.lt_succ_self s.process)
  constructor
  · rw [hheld, hsub, hproc]
    intro k hk
    have hle : k ≤ s.process := by
      rcases hk with hk | ⟨-, hne⟩
      · exact Nat.le_of_lt_succ hk
      · exact absurd hphase hne
    rcases Nat.lt_or_eq_of_le hle with hlt | heq
    · exact h.past k (Or.inl hlt)
    · exact h.past k (Or.inr ⟨heq, by rw [hwait]; decide⟩)
  · intro _
    right
    rw [hheld, hsub, hproc, hback, hnone, List.nil_append]
    exact h.waiting hwait
  · intro _
    rw [hheld, hproc]
    exact h.later _ (Nat.lt_succ_self _)
  · exact fun hw => absurd (hphase.symm.trans hw) (by decide)
  · exact fun he => absurd (hphase.symm.trans he) (by decide)
  · rw [hheld, hproc]
    exact fun k hk => h.later k (Nat.lt_of_succ_lt hk)

end

/-! ## every step -/

structure Owner.Inv (s : Owner) : Prop where
  accounts : s.Accounts
  once : s.Once
  order : s.Order

theorem Owner.loops_iff (s : Owner) : s.loops = true ↔ s.phase = .serve ∧ s.backlog = [] := by
  unfold Owner.loops
  rw [Bool.and_eq_true, beq_iff_eq, List.isEmpty_iff]

section
variable {serde : Serde} {s t : Owner}

theorem Owner.Accounts.nodup (h : s.Accounts) : s.holders.Nodup :=
  h.accounted.nodup_iff.mpr List.nodup_range

theorem Owner.Accounts.new_chan (h : s.Accounts) {cmd : AnalyzeCmd} {rest : List Cmd}
    (hchan : s.chan = .analyze cmd :: rest) : cmd.tx ∉ s.dropped ++ s.demux.accounts := by
  intro hmem
  have hn := (List.nodup_append.mp h.nodup).2.2
  have hhead : cmd.tx ∈ chanTxs s.chan := by
    rw [hchan]
    exact List.mem_cons_self ..
  exact hn _ hhead _ (List.mem_append_right _ hmem) rfl

theorem Owner.Accounts.new_backlog (h : s.Accounts) {cmd : AnalyzeCmd} {rest : List AnalyzeCmd}
    (hback : s.backlog = cmd :: rest) : cmd.tx ∉ s.dropped ++ s.demux.accounts := by
  intro hmem
  have hn := (List.nodup_append.mp (List.nodup_append.mp h.nodup).2.1).2.2
  have hhead : cmd.tx ∈ backlogTxs s.backlog := by
    rw [hback]
    exact List.mem_cons_self ..
  exact hn _ hhead _ hmem rfl

theorem Owner.Inv.quiet (h : s.Inv) (started : Bool) (status : Status) (backoff : Nat)
    (awaitsReady : Bool) (acks : List ReplyTx) :
    ({ s with started, status, backoff, awaitsReady, acks } : Owner).Inv where
  accounts := h.accounts.quiet started status backoff awaitsReady s.handles acks
  once := h.once.of_eq rfl rfl rfl rfl
  order := h.order.of_eq rfl rfl rfl rfl rfl fun _ hf => hf

theorem Owner.Inv.send (h : s.Inv) {call : AnalyzeCall} (hs : s.send call = some t) : t.Inv := by
  unfold Owner.send at hs
  obtain ⟨-, hs⟩ := Option.ite_none_right_eq_some.mp hs
  cases hc : call.cmd s.calls with
  | none =>
    have hst : s = t := by simpa [hc] using hs
    rw [← hst]
    exact h
  | some cmd =>
    have ht : { s with chan := s.chan ++ [.analyze cmd], calls := s.calls + 1 } = t := by
      simpa [hc] using hs
    obtain ⟨htx, -⟩ := AnalyzeCall.cmd_some hc
    rw [← ht]
    exact
      { accounts := h.accounts.send htx
        once := h.once.of_eq rfl rfl rfl rfl
        order := h.order.of_eq rfl rfl rfl rfl rfl fun _ hf => hf }

theorem Owner.Inv.drainOne (h : s.Inv) {write : Option String}
    (hs : s.drainOne serde write = some t) : t.Inv := by
  unfold Owner.drainOne at hs
  cases hp : s.phase with
  | waitOut => simp [hp] at hs
  | ended => simp [hp] at hs
  | serve =>
    cases hb : s.backlog with
    | nil => simp [hp, hb] at hs
    | cons cmd rest =>
      have ht : { s with backlog := rest }.submit serde cmd write = t := by
        simpa [hp, hb] using hs
      have hdrop : s.dropped = [] := h.accounts.alive (by rw [hp]; decide)
      have hperm : (cmd.tx :: ({ s with backlog := rest } : Owner).holders).Perm
          (List.range s.calls) := by
        refine List.Perm.trans ?_ h.accounts.accounted
        unfold Owner.holders
        rw [hb]
        exact List.perm_middle.symm
      have hone : ({ s with backlog := rest } : Owner).Once := h.once.of_eq rfl rfl rfl rfl
      rw [← ht]
      exact
        { accounts := Owner.Accounts.submit hperm h.accounts.ids hp hdrop write
          once := hone.submit h.accounts.ids (h.accounts.new_backlog hb) write
          order := h.order.drain hp hb write }

theorem Owner.Inv.serveCmd (h : s.Inv) (hserve : s.phase = .serve) (hback : s.backlog = [])
    {cmd : Cmd} {rest : List Cmd} (hchan : s.chan = cmd :: rest) (write : Option String) :
    ({ s with chan := rest }.serveCmd serde write cmd).Inv := by
  cases cmd with
  | analyze cmd =>
    have hdrop : s.dropped = [] := h.accounts.alive (by rw [hserve]; decide)
    have hperm : (cmd.tx :: ({ s with chan := rest } : Owner).holders).Perm
        (List.range s.calls) := by
      refine List.Perm.trans ?_ h.accounts.accounted
      unfold Owner.holders
      rw [hchan]
      exact List.Perm.refl _
    have hone : ({ s with chan := rest } : Owner).Once := h.once.of_eq rfl rfl rfl rfl
    have hord : ({ s with chan := rest } : Owner).Order :=
      h.order.of_eq rfl rfl rfl rfl rfl fun _ hf => hf
    exact
      { accounts := Owner.Accounts.submit hperm h.accounts.ids hserve hdrop write
        once := hone.submit h.accounts.ids (h.accounts.new_chan hchan) write
        order := hord.submit hserve hback cmd write }
  | shutdown ack =>
    have hacc := h.accounts.took_shutdown hchan
    have hone : ({ s with chan := rest } : Owner).Once := h.once.of_eq rfl rfl rfl rfl
    have hord : ({ s with chan := rest } : Owner).Order :=
      h.order.of_eq rfl rfl rfl rfl rfl fun _ hf => hf
    exact
      { accounts := ((hacc.failPending _).quiet s.started _ s.backoff s.awaitsReady s.handles
          (s.acks ++ [ack])).close
        once := (hone.failPending "katago engine shut down").close.of_eq rfl rfl rfl rfl
        order := hord.close (fun _ => hback) ⟨rfl, rfl, rfl, rfl⟩ fun hne => absurd hserve hne }

theorem Owner.Inv.waitCmd (h : s.Inv) (hwait : s.phase = .waitOut) {cmd : Cmd} {rest : List Cmd}
    (hchan : s.chan = cmd :: rest) : ({ s with chan := rest }.waitCmd cmd).Inv := by
  cases cmd with
  | analyze cmd =>
    exact
      { accounts := h.accounts.hold hchan
        once := h.once.of_eq rfl rfl rfl rfl
        order := h.order.hold hwait cmd rest }
  | shutdown ack =>
    have hacc := h.accounts.took_shutdown hchan
    have hone : ({ s with chan := rest } : Owner).Once := h.once.of_eq rfl rfl rfl rfl
    refine
      { accounts := ((hacc.failBacklog _).quiet s.started _ s.backoff s.awaitsReady s.handles
          (s.acks ++ [ack])).close
        once := (hone.failBacklog "katago engine shut down").close.of_eq rfl rfl rfl rfl
        order := h.order.close (fun hs => absurd (hwait.symm.trans hs) (by decide))
          ⟨rfl, rfl, rfl, rfl⟩ fun _ => Or.inl ?_ }
    -- the backlog is what was held, and all of it fails
    intro tx htx
    have hheld : tx ∈ heldFor s.held (s.process + 1) := htx
    rw [h.order.waiting hwait] at hheld
    obtain ⟨cmd, hcmd, rfl⟩ := List.mem_map.mp hheld
    exact List.mem_append_right _ (List.mem_map.mpr ⟨cmd, hcmd, rfl⟩)

theorem Owner.Inv.recv (h : s.Inv) {write : Option String} (hs : s.recv serde write = some t) :
    t.Inv := by
  unfold Owner.recv at hs
  cases hchan : s.chan with
  | nil => simp [hchan] at hs
  | cons cmd rest =>
    simp only [hchan] at hs
    by_cases hl : s.loops = true
    · rw [if_pos hl, Option.some.injEq] at hs
      obtain ⟨hserve, hback⟩ := s.loops_iff.mp hl
      rw [← hs]
      exact h.serveCmd hserve hback hchan write
    · rw [if_neg hl] at hs
      obtain ⟨hwait, hs⟩ := Option.ite_none_right_eq_some.mp hs
      rw [Option.some.injEq] at hs
      rw [← hs]
      exact h.waitCmd hwait hchan

theorem Owner.Inv.closed (h : s.Inv) (hs : s.closed = some t) : t.Inv := by
  unfold Owner.closed at hs
  obtain ⟨hopen, hs⟩ := Option.ite_none_left_eq_some.mp hs
  rw [Bool.or_eq_true, not_or] at hopen
  have hhandles : s.handles = false := by simpa using hopen.1
  by_cases hl : s.loops = true
  · rw [if_pos hl, Option.some.injEq] at hs
    obtain ⟨hserve, hback⟩ := s.loops_iff.mp hl
    rw [← hs]
    exact
      { accounts := h.accounts.close
        once := h.once.close
        order := h.order.close (fun _ => hback) ⟨rfl, rfl, rfl, rfl⟩
          fun hne => absurd hserve hne }
  · rw [if_neg hl] at hs
    obtain ⟨hwait, hs⟩ := Option.ite_none_right_eq_some.mp hs
    rw [Option.some.injEq] at hs
    rw [← hs]
    refine
      { accounts := (h.accounts.quiet s.started _ s.backoff s.awaitsReady s.handles s.acks).close
        once := h.once.close.of_eq rfl rfl rfl rfl
        order := h.order.close (fun hs => absurd (hwait.symm.trans hs) (by decide))
          ⟨rfl, rfl, rfl, rfl⟩ fun _ => Or.inr ⟨hhandles, ?_⟩ }
    intro tx htx
    have hheld : tx ∈ heldFor s.held (s.process + 1) := htx
    rw [h.order.waiting hwait] at hheld
    exact List.mem_append_right _ (List.mem_append_right _ (List.mem_append_left _ hheld))

theorem Owner.Inv.exit (h : s.Inv) {report : ExitReport} (hs : s.exit report = some t) :
    t.Inv := by
  unfold Owner.exit at hs
  obtain ⟨hl, hs⟩ := Option.ite_none_right_eq_some.mp hs
  obtain ⟨hserve, hback⟩ := s.loops_iff.mp hl
  have hdrop : s.dropped = [] := h.accounts.alive (by rw [hserve]; decide)
  have hacc := h.accounts.failPending s!"katago process exited ({report.status})"
  have hone := h.once.failPending s!"katago process exited ({report.status})"
  by_cases hstay : (!s.supervised || !s.started) = true
  · simp only [hstay, if_true, Option.some.injEq] at hs
    rw [← hs]
    exact
      { accounts := (hacc.quiet s.started _ s.backoff s.awaitsReady s.handles s.acks).close
        once := hone.close.of_eq rfl rfl rfl rfl
        order := h.order.close (fun _ => hback) ⟨rfl, rfl, rfl, rfl⟩
          fun hne => absurd hserve hne }
  · simp only [if_neg hstay, Option.some.injEq] at hs
    rw [← hs]
    exact
      { accounts := (hacc.turn rfl hdrop .waitOut s.process).quiet s.started _ _ s.awaitsReady
          s.handles s.acks
        once := hone.of_eq rfl rfl rfl rfl
        order := h.order.exit hserve hback ⟨rfl, rfl, rfl, rfl, rfl⟩ }

theorem Owner.Inv.wake (h : s.Inv) {launched : Bool} (hs : s.wake launched = some t) : t.Inv := by
  unfold Owner.wake at hs
  obtain ⟨hwait, hs⟩ := Option.ite_none_right_eq_some.mp hs
  have hpend : s.demux.pending = ∅ := h.accounts.idle (by rw [hwait]; decide)
  have hdrop : s.dropped = [] := h.accounts.alive (by rw [hwait]; decide)
  cases launched with
  | false =>
    simp only [Bool.false_eq_true, if_false, Option.some.injEq] at hs
    rw [← hs]
    exact h.quiet s.started s.status _ s.awaitsReady s.acks
  | true =>
    simp only [if_true, Option.some.injEq] at hs
    rw [← hs]
    exact
      { accounts := (h.accounts.turn hpend hdrop .serve (s.process + 1)).quiet s.started .starting
          _ true s.handles s.acks
        once := h.once.relaunch hpend ⟨rfl, rfl, rfl, rfl⟩
        order := h.order.relaunch h.once hwait ⟨rfl, rfl, rfl, rfl, rfl⟩ }

theorem Owner.Inv.step (h : s.Inv) {a : OwnerAction} (hs : s.step serde a = some t) : t.Inv := by
  cases a with
  | send call => exact h.send hs
  | drain write => exact h.drainOne hs
  | recv write => exact h.recv hs
  | closed => exact h.closed hs
  | exit report => exact h.exit hs
  | wake launched => exact h.wake hs
  | askShutdown ack =>
    obtain ⟨-, hs⟩ := Option.ite_none_right_eq_some.mp hs
    rw [Option.some.injEq] at hs
    rw [← hs]
    exact
      { accounts := h.accounts.ask ack
        once := h.once.of_eq rfl rfl rfl rfl
        order := h.order.of_eq rfl rfl rfl rfl rfl fun _ hf => hf }
  | dropHandles =>
    obtain ⟨-, hs⟩ := Option.ite_none_right_eq_some.mp hs
    rw [Option.some.injEq] at hs
    rw [← hs]
    exact
      { accounts := h.accounts.quiet s.started s.status s.backoff s.awaitsReady false s.acks
        once := h.once.of_eq rfl rfl rfl rfl
        order := h.order.of_eq rfl rfl rfl rfl rfl fun _ hf =>
          hf.imp_right fun hd => ⟨rfl, hd.2⟩ }
  | ready announced =>
    obtain ⟨-, hs⟩ := Option.ite_none_right_eq_some.mp hs
    rw [Option.some.injEq] at hs
    rw [← hs]
    exact h.quiet _ _ s.backoff false s.acks
  | line text =>
    obtain ⟨hl, hs⟩ := Option.ite_none_right_eq_some.mp hs
    obtain ⟨hserve, -⟩ := s.loops_iff.mp hl
    rw [Option.some.injEq] at hs
    rw [← hs]
    exact
      { accounts := h.accounts.line hserve text
        once := h.once.line text
        order := h.order.of_eq rfl rfl rfl rfl rfl fun he =>
          absurd (hserve.symm.trans he) (by decide) }

theorem Owner.Inv.initial (supervised : Bool) : (Owner.initial supervised).Inv where
  accounts := ⟨List.Perm.refl _, fun id hid => absurd hid (AList.notMem_empty id), fun _ => rfl,
    fun _ => rfl⟩
  once := ⟨fun _ he => absurd he List.not_mem_nil, List.nodup_nil,
    fun _ he => absurd he List.not_mem_nil, List.nodup_nil,
    fun _ he => absurd he List.not_mem_nil, fun _ htx => absurd htx List.not_mem_nil⟩
  order := ⟨fun _ _ => List.prefix_refl _, fun _ => Or.inr rfl, fun _ => rfl, fun _ => rfl,
    fun he => (by cases he), fun _ _ => rfl⟩

theorem Owner.Inv.reachable {supervised : Bool} (h : (ownerSys serde supervised).Reachable s) :
    s.Inv :=
  h.rule (I := Owner.Inv)
    (fun s h0 => by rw [show s = Owner.initial supervised from h0]; exact .initial supervised)
    fun _ _ _ hI hs => hI.step hs

end

/-! ## what holds in every run -/

/-- What became of the queries held for process `k`: given to it first and in order; being given
to it; waiting for it; or, the task over before it was launched, failed by the shutdown or
dropped with the last handle. -/
def Owner.HeldFate (s : Owner) (k : Nat) : Prop :=
  heldFor s.held k <+: sentTo s.submitted k ∨
  (s.phase = .serve ∧ k = s.process ∧
    heldFor s.held k = sentTo s.submitted k ++ backlogTxs s.backlog) ∨
  (s.phase = .waitOut ∧ k = s.process + 1 ∧ sentTo s.submitted k = [] ∧
    heldFor s.held k = backlogTxs s.backlog) ∨
  (s.phase = .ended ∧ k = s.process + 1 ∧ sentTo s.submitted k = [] ∧ s.Fate)

structure Owner.Sound (s : Owner) : Prop where
  /-- every accepted query has one holder, and is there once -/
  holders : s.holders.Perm (List.range s.calls)
  /-- a reply channel is dropped only with the task -/
  dropped : s.dropped ≠ [] → s.phase = .ended
  /-- no query is given to a process twice, or to two -/
  once : (s.submitted.map Sent.tx).Nodup
  /-- no id is given out twice, over all processes -/
  ids : (s.submitted.map Sent.id).Nodup
  held : ∀ k, s.HeldFate k
  /-- an exit fails what is pending: the queries given to that process and not answered -/
  exit : ∀ report t, s.exit report = some t →
    let failed := drain s.demux.pending s!"katago process exited ({report.status})"
    t.demux.replies = s.demux.replies ++ failed ∧ t.demux.pending = ∅ ∧
      ∀ tx, tx ∈ failed.map Prod.fst ↔
        tx ∈ sentTo s.submitted s.process ∧ tx ∉ s.demux.replies.map Prod.fst

section
variable {serde : Serde} {s t : Owner}

theorem Owner.Inv.heldFate (h : s.Inv) (k : Nat) : s.HeldFate k := by
  rcases lt_trichotomy k s.process with hlt | heq | hgt
  · exact Or.inl (h.order.past k (Or.inl hlt))
  · subst heq
    by_cases hserve : s.phase = .serve
    · rcases h.order.serving hserve with ⟨-, hp⟩ | he
      · exact Or.inl hp
      · exact Or.inr (Or.inl ⟨hserve, rfl, he⟩)
    · exact Or.inl (h.order.past _ (Or.inr ⟨rfl, hserve⟩))
  · rcases Nat.lt_or_eq_of_le (Nat.succ_le_of_lt hgt) with hlater | hnext
    · left
      rw [h.order.later k hlater]
      exact List.nil_prefix
    · have hk : k = s.process + 1 := hnext.symm
      have hnone := h.once.sentTo_none hgt
      cases hp : s.phase with
      | serve =>
        left
        rw [hk, h.order.next hp]
        exact List.nil_prefix
      | waitOut =>
        refine Or.inr (Or.inr (Or.inl ⟨hp, hk, hnone, ?_⟩))
        rw [hk]
        exact h.order.waiting hp
      | ended => exact Or.inr (Or.inr (Or.inr ⟨hp, hk, hnone, h.order.fate hp⟩))

theorem Owner.Inv.pending_iff (h : s.Inv) (hserve : s.phase = .serve) (tx : ReplyTx) :
    tx ∈ owners s.demux.pending ↔
      tx ∈ sentTo s.submitted s.process ∧ tx ∉ s.demux.replies.map Prod.fst := by
  have hdrop : s.dropped = [] := h.accounts.alive (by rw [hserve]; decide)
  have hnodup : s.demux.accounts.Nodup := by
    have hholders := h.accounts.nodup
    unfold Owner.holders at hholders
    rw [hdrop] at hholders
    exact (List.nodup_append.mp (List.nodup_append.mp hholders).2.1).2.1
  constructor
  · intro htx
    refine ⟨h.once.current tx htx, fun hrep => ?_⟩
    exact (List.nodup_append.mp hnodup).2.2 _ htx _ hrep rfl
  · rintro ⟨hsent, hrep⟩
    obtain ⟨e, he, rfl⟩ := List.mem_map.mp hsent
    have hk := h.once.kept e (List.mem_filter.mp he).1
    rw [hdrop, List.nil_append] at hk
    rcases List.mem_append.mp hk with hp | hr
    · exact hp
    · exact absurd hr hrep

theorem Owner.exit_demux {report : ExitReport} (hs : s.exit report = some t) :
    t.demux.replies = s.demux.replies
        ++ drain s.demux.pending s!"katago process exited ({report.status})" ∧
      t.demux.pending = ∅ := by
  unfold Owner.exit at hs
  obtain ⟨-, hs⟩ := Option.ite_none_right_eq_some.mp hs
  by_cases hstay : (!s.supervised || !s.started) = true
  · simp only [hstay, if_true, Option.some.injEq] at hs
    rw [← hs]
    exact ⟨rfl, rfl⟩
  · simp only [if_neg hstay, Option.some.injEq] at hs
    rw [← hs]
    exact ⟨rfl, rfl⟩

/-- **No query is lost or answered twice**, whatever crashes: in every reachable state every
accepted query has one holder, none is submitted twice, those held while the engine was down go
to the next process first and in order, and an exit fails exactly what was pending on it. -/
theorem no_query_lost {supervised : Bool} (h : (ownerSys serde supervised).Reachable s) :
    s.Sound := by
  have hI : s.Inv := Owner.Inv.reachable h
  refine
    { holders := hI.accounts.accounted
      dropped := ?_
      once := hI.once.once
      ids := hI.once.ids
      held := hI.heldFate
      exit := ?_ }
  · intro hne
    by_contra hp
    exact hne (hI.accounts.alive hp)
  · intro report t hs
    obtain ⟨hrep, hpend⟩ := Owner.exit_demux hs
    have hl := (Option.ite_none_right_eq_some.mp hs).1
    refine ⟨hrep, hpend, fun tx => ?_⟩
    rw [drain_owners]
    exact hI.pending_iff (s.loops_iff.mp hl).1 tx

end

/-! A query crashes with the engine; the next waits for the relaunch that succeeds. -/

def crashActions : List OwnerAction :=
  [.ready true, .send oneMoveCall, .recv none, .exit ⟨"signal: 9", []⟩, .send oneMoveCall,
    .recv none, .wake false, .wake true, .drain none]

def crashState : Owner :=
  ((ownerSys oneMoveSerde true).exec (Owner.initial true) crashActions).getD (Owner.initial true)

theorem no_query_lost_crash :
    crashState.Sound ∧ heldFor crashState.held 1 = [1] ∧ sentTo crashState.submitted 1 = [1] :=
  ⟨no_query_lost (show (ownerSys oneMoveSerde true).Reachable crashState from
    ⟨Owner.initial true, crashActions, rfl, rfl⟩), rfl, rfl⟩

end KatagoWs
