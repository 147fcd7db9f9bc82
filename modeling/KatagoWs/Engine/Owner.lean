import KatagoWs.Engine.Demux

/-!
# The owner of the engine process

One task owns the engine: it serves a process until that exits, waits with the queries that
arrive meanwhile in a backlog, relaunches, and gives the backlog to the new process first.  A
query passes through the command channel, perhaps the backlog, and the pending table.

* `Owner.step`        the task's `select!` branches, its callers, and the engine;
* `Owner.holders`     the reply channel of every accepted query, by who holds it;
* `Owner.Accounts`    every accepted query is held once, with a lemma for each operation;
* `Owner.Once`        it is submitted at most once, under an id of its own, likewise.

`submitted` and `held` are records of the model: which process a query went to, and for which
one it was held.
-/

namespace KatagoWs
open Lib Lib.Batches

def CMD_QUEUE_CAPACITY : Nat := 64

/-- seconds -/
def RESTART_BACKOFF_MIN : Nat := 1

def RESTART_BACKOFF_MAX : Nat := 60

inductive Cmd where
  | analyze (cmd : AnalyzeCmd)
  | shutdown (ack : ReplyTx)

inductive Status where
  | starting
  | ready
  | exited (report : String)
deriving DecidableEq, Repr

structure ExitReport where
  status : String
  stderr : List String

def ExitReport.toString (r : ExitReport) : String :=
  if r.stderr.isEmpty then r.status
  else r.status ++ "; last stderr lines:\n" ++ String.intercalate "\n" r.stderr

/-- where the task is: in `serve`, in `wait_out`, or over -/
inductive OwnerPhase where
  | serve
  | waitOut
  | ended
deriving DecidableEq, Repr

/-- a query given to a process, under which id, and the line written -/
structure Sent where
  process : Nat
  tx : ReplyTx
  id : String
  line : Option String

structure Owner where
  supervised : Bool
  started : Bool
  status : Status
  backoff : Nat
  phase : OwnerPhase
  awaitsReady : Bool
  process : Nat
  chan : List Cmd
  handles : Bool
  backlog : List AnalyzeCmd
  demux : Demux
  calls : Nat
  submitted : List Sent
  held : List (Nat × ReplyTx)
  dropped : List ReplyTx
  acks : List ReplyTx

/-! ## the steps -/

section
variable (serde : Serde)

def Cmd.tx : Cmd → Option ReplyTx
  | .analyze cmd => some cmd.tx
  | .shutdown _ => none

def chanTxs (chan : List Cmd) : List ReplyTx := chan.filterMap Cmd.tx

def backlogTxs (backlog : List AnalyzeCmd) : List ReplyTx := backlog.map AnalyzeCmd.tx

def Owner.submit (s : Owner) (cmd : AnalyzeCmd) (write : Option String) : Owner :=
  let id := queryId s.demux.nextId
  let line := (serde.toString { cmd.query with id }).toOption.map fun json => json ++ "\n"
  { s with
    demux := s.demux.submit serde cmd write
    submitted := s.submitted ++ [⟨s.process, cmd.tx, id, line⟩] }

def Owner.failPending (s : Owner) (err : String) : Owner :=
  { s with
    demux := { s.demux with
      pending := ∅
      replies := s.demux.replies ++ drain s.demux.pending err } }

def Owner.failBacklog (s : Owner) (err : String) : Owner :=
  { s with
    backlog := []
    demux := { s.demux with
      replies := s.demux.replies ++ s.backlog.map fun cmd => (cmd.tx, .error err) } }

/-- the task returns: the receiver of the channel and all it still holds are dropped -/
def Owner.close (s : Owner) : Owner :=
  { s with
    phase := .ended
    dropped := s.dropped ++ (chanTxs s.chan ++ (backlogTxs s.backlog ++ owners s.demux.pending))
    chan := []
    backlog := []
    demux := { s.demux with pending := ∅ } }

def Owner.serveCmd (s : Owner) (write : Option String) : Cmd → Owner
  | .analyze cmd => s.submit serde cmd write
  | .shutdown ack =>
    let s := s.failPending "katago engine shut down"
    { s with
      status := .exited "katago engine shut down"
      acks := s.acks ++ [ack] }.close

def Owner.waitCmd (s : Owner) : Cmd → Owner
  | .analyze cmd =>
    { s with
      backlog := s.backlog ++ [cmd]
      held := s.held ++ [(s.process + 1, cmd.tx)] }
  | .shutdown ack =>
    let s := s.failBacklog "katago engine shut down"
    { s with
      status := .exited "katago engine shut down"
      acks := s.acks ++ [ack] }.close

inductive OwnerAction where
  | send (call : AnalyzeCall)
  | askShutdown (ack : ReplyTx)
  | dropHandles
  | drain (write : Option String)
  | recv (write : Option String)
  | closed
  | ready (announced : Bool)
  | line (text : String)
  | exit (report : ExitReport)
  | wake (launched : Bool)

def Owner.accepts (s : Owner) : Bool :=
  s.phase != .ended && s.handles && decide (s.chan.length < CMD_QUEUE_CAPACITY)

/-- whether the task is in the loop of `serve`, the backlog given to the process -/
def Owner.loops (s : Owner) : Bool := s.phase == .serve && s.backlog.isEmpty

def Owner.send (s : Owner) (call : AnalyzeCall) : Option Owner :=
  if s.accepts then
    match call.cmd s.calls with
    | none => some s
    | some cmd => some { s with chan := s.chan ++ [.analyze cmd], calls := s.calls + 1 }
  else none

def Owner.drainOne (s : Owner) (write : Option String) : Option Owner :=
  match s.phase, s.backlog with
  | .serve, cmd :: rest => some ({ s with backlog := rest }.submit serde cmd write)
  | _, _ => none

def Owner.recv (s : Owner) (write : Option String) : Option Owner :=
  match s.chan with
  | [] => none
  | cmd :: rest =>
    if s.loops then some ({ s with chan := rest }.serveCmd serde write cmd)
    else if s.phase = .waitOut then some ({ s with chan := rest }.waitCmd cmd)
    else none

def Owner.closed (s : Owner) : Option Owner :=
  if s.handles || !s.chan.isEmpty then none
  else if s.loops then some s.close
  else if s.phase = .waitOut then
    some { s with status := .exited "katago engine shut down" }.close
  else none

def Owner.ready (s : Owner) (announced : Bool) : Option Owner :=
  if s.loops && s.awaitsReady then
    some { s with
      awaitsReady := false
      started := announced || s.started
      status := if announced then .ready else s.status }
  else none

def Owner.exit (s : Owner) (report : ExitReport) : Option Owner :=
  if s.loops then
    let t := s.failPending s!"katago process exited ({report.status})"
    if !s.supervised || !s.started then
      some { t with status := .exited report.toString }.close
    else
      -- a crash after a healthy start relaunches promptly
      some { t with
        backoff := if s.status = .ready then RESTART_BACKOFF_MIN else s.backoff
        status := .exited report.toString
        phase := .waitOut }
  else none

/-- the delay is over: a relaunch, which may fail -/
def Owner.wake (s : Owner) (launched : Bool) : Option Owner :=
  if s.phase = .waitOut then
    let s := { s with backoff := min (s.backoff * 2) RESTART_BACKOFF_MAX }
    if launched then
      some { s with
        status := .starting
        phase := .serve
        awaitsReady := true
        process := s.process + 1 }
    else some s
  else none

def Owner.step (s : Owner) : OwnerAction → Option Owner
  | .send call => s.send call
  | .askShutdown ack =>
    if s.accepts then some { s with chan := s.chan ++ [.shutdown ack] } else none
  | .dropHandles => if s.handles then some { s with handles := false } else none
  | .drain write => s.drainOne serde write
  | .recv write => s.recv serde write
  | .closed => s.closed
  | .ready announced => s.ready announced
  | .line text => if s.loops then some { s with demux := s.demux.line serde text } else none
  | .exit report => s.exit report
  | .wake launched => s.wake launched

def Owner.initial (supervised : Bool) : Owner :=
  { supervised
    started := false
    status := .starting
    backoff := RESTART_BACKOFF_MIN
    phase := .serve
    awaitsReady := true
    process := 0
    chan := []
    handles := true
    backlog := []
    demux := ⟨0, ∅, [], 0⟩
    calls := 0
    submitted := []
    held := []
    dropped := []
    acks := [] }

def ownerSys (supervised : Bool) : Sys Owner OwnerAction where
  init s := s = Owner.initial supervised
  step := Owner.step serde

end

/-! ## every accepted query is held once -/

/-- the reply channels of the accepted queries: in the command channel, the backlog, dropped with
the task, pending or answered -/
def Owner.holders (s : Owner) : List ReplyTx :=
  chanTxs s.chan ++ (backlogTxs s.backlog ++ (s.dropped ++ s.demux.accounts))

structure Owner.Accounts (s : Owner) : Prop where
  accounted : s.holders.Perm (List.range s.calls)
  ids : s.demux.Ids
  idle : s.phase ≠ .serve → s.demux.pending = ∅
  alive : s.phase ≠ .ended → s.dropped = []

theorem Owner.holders_count (s : Owner) (tx : ReplyTx) :
    s.holders.count tx = (chanTxs s.chan).count tx + (backlogTxs s.backlog).count tx
      + s.dropped.count tx + s.demux.accounts.count tx := by
  unfold Owner.holders
  rw [List.count_append, List.count_append, List.count_append]
  omega

theorem Owner.holders_perm {s t : Owner}
    (h : ∀ tx, (chanTxs t.chan).count tx + (backlogTxs t.backlog).count tx
      + t.dropped.count tx + t.demux.accounts.count tx = s.holders.count tx) :
    t.holders.Perm s.holders := by
  rw [List.perm_iff_count]
  intro tx
  rw [Owner.holders_count, h]

theorem Demux.fail_accounts (d : Demux) (err : String) :
    ({ d with pending := ∅, replies := d.replies ++ drain d.pending err } : Demux).accounts.Perm
      d.accounts := by
  unfold Demux.accounts
  show ([] ++ (d.replies ++ drain d.pending err).map Prod.fst).Perm _
  rw [List.nil_append, List.map_append, drain_owners]
  exact List.perm_append_comm

section
variable {serde : Serde} {s : Owner}

theorem Owner.Accounts.send (h : s.Accounts) {cmd : AnalyzeCmd} (htx : cmd.tx = s.calls) :
    ({ s with chan := s.chan ++ [.analyze cmd], calls := s.calls + 1 } : Owner).Accounts where
  ids := h.ids
  idle := h.idle
  alive := h.alive
  accounted := by
    rw [List.perm_iff_count]
    intro tx
    have hcount := h.accounted.count_eq tx
    have hchan : chanTxs (s.chan ++ [.analyze cmd]) = chanTxs s.chan ++ [s.calls] := by
      unfold chanTxs
      rw [List.filterMap_append, ← htx]
      rfl
    rw [Owner.holders_count] at hcount ⊢
    show (chanTxs (s.chan ++ [.analyze cmd])).count tx + (backlogTxs s.backlog).count tx
      + s.dropped.count tx + s.demux.accounts.count tx = (List.range (s.calls + 1)).count tx
    rw [hchan, List.count_append, List.range_succ, List.count_append]
    omega

theorem Owner.Accounts.ask (h : s.Accounts) (ack : ReplyTx) :
    ({ s with chan := s.chan ++ [.shutdown ack] } : Owner).Accounts where
  ids := h.ids
  idle := h.idle
  alive := h.alive
  accounted := by
    have hchan : chanTxs (s.chan ++ [.shutdown ack]) = chanTxs s.chan := by
      unfold chanTxs
      rw [List.filterMap_append]
      exact List.append_nil _
    have hh : ({ s with chan := s.chan ++ [.shutdown ack] } : Owner).holders = s.holders := by
      unfold Owner.holders
      rw [hchan]
    rw [hh]
    exact h.accounted

theorem Owner.Accounts.submit {cmd : AnalyzeCmd}
    (hacc : (cmd.tx :: s.holders).Perm (List.range s.calls)) (hids : s.demux.Ids)
    (hserve : s.phase = .serve) (halive : s.dropped = []) (write : Option String) :
    (s.submit serde cmd write).Accounts where
  ids := Demux.submit_ids serde hids cmd write
  idle := fun hne => absurd hserve hne
  alive := fun _ => halive
  accounted := by
    refine List.Perm.trans ?_ hacc
    rw [List.perm_iff_count]
    intro tx
    have hdemux := (Demux.submit_accounts serde hids cmd write).count_eq tx
    rw [List.count_cons] at hdemux
    rw [List.count_cons, Owner.holders_count, Owner.holders_count]
    show _ + _ + _ + (s.demux.submit serde cmd write).accounts.count tx = _
    rw [hdemux]
    show (chanTxs s.chan).count tx + (backlogTxs s.backlog).count tx + s.dropped.count tx + _ = _
    omega

theorem Owner.Accounts.hold (h : s.Accounts) {cmd : AnalyzeCmd} {rest : List Cmd}
    (hchan : s.chan = .analyze cmd :: rest) :
    ({ s with chan := rest }.waitCmd (.analyze cmd)).Accounts where
  ids := h.ids
  idle := h.idle
  alive := h.alive
  accounted := by
    refine (Owner.holders_perm ?_).trans h.accounted
    intro tx
    rw [Owner.holders_count, hchan]
    show (chanTxs rest).count tx + (backlogTxs (s.backlog ++ [cmd])).count tx + _ + _
      = (cmd.tx :: chanTxs rest).count tx + _ + _ + _
    unfold backlogTxs
    rw [List.map_append, List.count_append, List.count_cons, List.map_cons, List.map_nil,
      List.count_cons, List.count_nil]
    show _ + _ + s.dropped.count tx + s.demux.accounts.count tx = _
    omega

theorem Owner.Accounts.line (h : s.Accounts) (hserve : s.phase = .serve) (text : String) :
    ({ s with demux := s.demux.line serde text } : Owner).Accounts where
  ids := Demux.line_ids serde h.ids text
  idle := fun hne => absurd hserve hne
  alive := h.alive
  accounted := by
    refine (Owner.holders_perm ?_).trans h.accounted
    intro tx
    rw [Owner.holders_count, ← (Demux.line_accounts serde s.demux text).count_eq tx]

theorem Owner.Accounts.took_shutdown (h : s.Accounts) {ack : ReplyTx} {rest : List Cmd}
    (hchan : s.chan = .shutdown ack :: rest) : ({ s with chan := rest } : Owner).Accounts where
  ids := h.ids
  idle := h.idle
  alive := h.alive
  accounted := by
    have hh : ({ s with chan := rest } : Owner).holders = s.holders := by
      unfold Owner.holders
      rw [hchan]
      rfl
    rw [hh]
    exact h.accounted

theorem Owner.Accounts.failPending (h : s.Accounts) (err : String) :
    (s.failPending err).Accounts where
  ids := fun id hid => absurd hid (AList.notMem_empty id)
  idle := fun _ => rfl
  alive := h.alive
  accounted := by
    refine (Owner.holders_perm ?_).trans h.accounted
    intro tx
    rw [Owner.holders_count, ← (Demux.fail_accounts s.demux err).count_eq tx]
    rfl

theorem Owner.Accounts.failBacklog (h : s.Accounts) (err : String) :
    (s.failBacklog err).Accounts where
  ids := h.ids
  idle := h.idle
  alive := h.alive
  accounted := by
    refine (Owner.holders_perm ?_).trans h.accounted
    intro tx
    have hfst : (s.backlog.map fun cmd => (cmd.tx, (.error err : Reply))).map Prod.fst
        = backlogTxs s.backlog := by
      rw [List.map_map]
      rfl
    rw [Owner.holders_count]
    unfold Owner.failBacklog Demux.accounts
    show (chanTxs s.chan).count tx + (backlogTxs []).count tx + s.dropped.count tx
      + (owners s.demux.pending ++ (s.demux.replies ++ _).map Prod.fst).count tx = _
    rw [List.map_append, hfst, List.count_append, List.count_append, List.count_append]
    show _ + 0 + _ + _ = _
    omega

theorem Owner.Accounts.close (h : s.Accounts) : s.close.Accounts where
  ids := fun id hid => absurd hid (AList.notMem_empty id)
  idle := fun _ => rfl
  alive := fun hne => absurd rfl hne
  accounted := by
    refine (Owner.holders_perm ?_).trans h.accounted
    intro tx
    rw [Owner.holders_count]
    unfold Owner.close Demux.accounts
    show (chanTxs []).count tx + (backlogTxs []).count tx
      + (s.dropped ++ (chanTxs s.chan ++ (backlogTxs s.backlog ++ owners s.demux.pending))).count tx
      + ([] ++ s.demux.replies.map Prod.fst).count tx = _
    simp only [List.count_append]
    show 0 + 0 + _ + _ = _
    rw [List.count_nil]
    omega

theorem Owner.Accounts.quiet (h : s.Accounts) (started : Bool) (status : Status) (backoff : Nat)
    (awaitsReady handles : Bool) (acks : List ReplyTx) :
    ({ s with started, status, backoff, awaitsReady, handles, acks } : Owner).Accounts :=
  ⟨h.accounted, h.ids, h.idle, h.alive⟩

theorem Owner.Accounts.turn (h : s.Accounts) (hpend : s.demux.pending = ∅)
    (halive : s.dropped = []) (phase : OwnerPhase) (process : Nat) :
    ({ s with phase, process } : Owner).Accounts :=
  ⟨h.accounted, h.ids, fun _ => hpend, fun _ => halive⟩

end

/-! ## no query is submitted twice -/

def sentTo (submitted : List Sent) (k : Nat) : List ReplyTx :=
  (submitted.filter fun e => e.process == k).map Sent.tx

/-- the queries held for process `k`, in order of arrival -/
def heldFor (held : List (Nat × ReplyTx)) (k : Nat) : List ReplyTx :=
  (held.filter fun e => e.1 == k).map Prod.snd

theorem sentTo_append (submitted : List Sent) (e : Sent) (k : Nat) :
    sentTo (submitted ++ [e]) k
      = sentTo submitted k ++ if e.process = k then [e.tx] else [] := by
  unfold sentTo
  rw [List.filter_append, List.map_append]
  by_cases h : e.process = k
  · simp [h]
  · simp [h]

theorem heldFor_append (held : List (Nat × ReplyTx)) (e : Nat × ReplyTx) (k : Nat) :
    heldFor (held ++ [e]) k = heldFor held k ++ if e.1 = k then [e.2] else [] := by
  unfold heldFor
  rw [List.filter_append, List.map_append]
  by_cases h : e.1 = k
  · simp [h]
  · simp [h]

structure Owner.Once (s : Owner) : Prop where
  kept : ∀ e ∈ s.submitted, e.tx ∈ s.dropped ++ s.demux.accounts
  once : (s.submitted.map Sent.tx).Nodup
  given : ∀ e ∈ s.submitted, ∃ n < s.demux.nextId, e.id = queryId n
  ids : (s.submitted.map Sent.id).Nodup
  processes : ∀ e ∈ s.submitted, e.process ≤ s.process
  current : ∀ tx ∈ owners s.demux.pending, tx ∈ sentTo s.submitted s.process

theorem Demux.line_owners {serde : Serde} {d : Demux} {text : String} {tx : ReplyTx}
    (h : tx ∈ owners (d.line serde text).pending) : tx ∈ owners d.pending := by
  rw [Demux.line_eq] at h
  cases hr : readLine serde text with
  | none =>
    rw [hr] at h
    exact h
  | some r =>
    rw [hr] at h
    exact (deliver_owners d.pending r.1 r.2).mem_iff.mp (List.mem_append_left _ h)

theorem Demux.line_nextId (serde : Serde) (d : Demux) (text : String) :
    (d.line serde text).nextId = d.nextId := by
  rw [Demux.line_eq]
  cases readLine serde text <;> rfl

section
variable {serde : Serde} {s t : Owner}

/-- nothing is submitted to a process that is not launched yet -/
theorem Owner.Once.sentTo_none (h : s.Once) {k : Nat} (hk : s.process < k) :
    sentTo s.submitted k = [] := by
  unfold sentTo
  rw [List.map_eq_nil_iff, List.filter_eq_nil_iff]
  intro e he heq
  have hle := h.processes e he
  rw [eq_of_beq heq] at hle
  omega

theorem Owner.Once.of_eq (h : s.Once) (hsub : t.submitted = s.submitted)
    (hdemux : t.demux = s.demux) (hdrop : t.dropped = s.dropped) (hproc : t.process = s.process) :
    t.Once := by
  constructor
  · rw [hsub, hdemux, hdrop]
    exact h.kept
  · rw [hsub]
    exact h.once
  · rw [hsub, hdemux]
    exact h.given
  · rw [hsub]
    exact h.ids
  · rw [hsub, hproc]
    exact h.processes
  · rw [hsub, hdemux, hproc]
    exact h.current

/-- A query from the channel or the backlog has not been submitted before. -/
theorem Owner.Once.submit (h : s.Once) (hids : s.demux.Ids) {cmd : AnalyzeCmd}
    (hnew : cmd.tx ∉ s.dropped ++ s.demux.accounts) (write : Option String) :
    (s.submit serde cmd write).Once := by
  have hacc := Demux.submit_accounts serde hids cmd write
  constructor
  · intro e he
    show e.tx ∈ s.dropped ++ (s.demux.submit serde cmd write).accounts
    rcases List.mem_append.mp he with he | he
    · rcases List.mem_append.mp (h.kept e he) with hd | hd
      · exact List.mem_append_left _ hd
      · exact List.mem_append_right _ (hacc.mem_iff.mpr (List.mem_cons_of_mem _ hd))
    · rw [List.mem_singleton] at he
      subst he
      exact List.mem_append_right _ (hacc.mem_iff.mpr (List.mem_cons_self ..))
  · show ((s.submitted ++ [_]).map Sent.tx).Nodup
    rw [List.map_append, List.nodup_append]
    refine ⟨h.once, List.nodup_singleton _, ?_⟩
    intro a ha b hb heq
    obtain ⟨e, he, rfl⟩ := List.mem_map.mp ha
    rw [List.map_cons, List.map_nil, List.mem_singleton] at hb
    apply hnew
    rw [← show e.tx = cmd.tx from heq.trans hb]
    exact h.kept e he
  · intro e he
    show ∃ n < (s.demux.submit serde cmd write).nextId, e.id = queryId n
    rw [Demux.submit_nextId]
    rcases List.mem_append.mp he with he | he
    · obtain ⟨n, hn, hid⟩ := h.given e he
      exact ⟨n, Nat.lt_succ_of_lt hn, hid⟩
    · rw [List.mem_singleton] at he
      subst he
      exact ⟨s.demux.nextId, Nat.lt_succ_self _, rfl⟩
  · show ((s.submitted ++ [_]).map Sent.id).Nodup
    rw [List.map_append, List.nodup_append]
    refine ⟨h.ids, List.nodup_singleton _, ?_⟩
    intro a ha b hb heq
    obtain ⟨e, he, rfl⟩ := List.mem_map.mp ha
    rw [List.map_cons, List.map_nil, List.mem_singleton] at hb
    obtain ⟨n, hn, hid⟩ := h.given e he
    have hsame : n = s.demux.nextId := queryId_injective (hid.symm.trans (heq.trans hb))
    omega
  · intro e he
    rcases List.mem_append.mp he with he | he
    · exact h.processes e he
    · rw [List.mem_singleton] at he
      subst he
      exact le_refl _
  · intro tx htx
    show tx ∈ sentTo (s.submitted ++ [_]) s.process
    rw [sentTo_append]
    rcases s.demux.submit_cases serde cmd write with ⟨hp, -⟩ | ⟨hp, -⟩
    · have htx' : tx ∈ owners (s.demux.pending.insert (queryId s.demux.nextId)
          ⟨cmd.expected, [], cmd.tx⟩) := by
        rw [← hp]
        exact htx
      rw [owners_insert_new hids.fresh] at htx'
      rcases List.mem_cons.mp htx' with rfl | htx'
      · exact List.mem_append_right _ (by simp)
      · exact List.mem_append_left _ (h.current tx htx')
    · have htx' : tx ∈ owners s.demux.pending := by
        rw [← hp]
        exact htx
      exact List.mem_append_left _ (h.current tx htx')

theorem Owner.Once.line (h : s.Once) (text : String) :
    ({ s with demux := s.demux.line serde text } : Owner).Once where
  kept := by
    intro e he
    rw [List.mem_append, (Demux.line_accounts serde s.demux text).mem_iff, ← List.mem_append]
    exact h.kept e he
  once := h.once
  given := by
    intro e he
    rw [Demux.line_nextId]
    exact h.given e he
  ids := h.ids
  processes := h.processes
  current := fun tx htx => h.current tx (Demux.line_owners htx)

theorem Owner.Once.failPending (h : s.Once) (err : String) : (s.failPending err).Once where
  kept := by
    intro e he
    have hperm : (s.failPending err).demux.accounts.Perm s.demux.accounts :=
      Demux.fail_accounts s.demux err
    show e.tx ∈ s.dropped ++ (s.failPending err).demux.accounts
    rw [List.mem_append, hperm.mem_iff, ← List.mem_append]
    exact h.kept e he
  once := h.once
  given := h.given
  ids := h.ids
  processes := h.processes
  current := fun _ htx => absurd htx List.not_mem_nil

theorem Owner.Once.failBacklog (h : s.Once) (err : String) : (s.failBacklog err).Once where
  kept := by
    intro e he
    have hk := h.kept e he
    unfold Demux.accounts at hk
    show e.tx ∈ s.dropped ++ (owners s.demux.pending ++ (s.demux.replies ++ _).map Prod.fst)
    rw [List.map_append, ← List.append_assoc, ← List.append_assoc]
    rw [← List.append_assoc] at hk
    exact List.mem_append_left _ hk
  once := h.once
  given := h.given
  ids := h.ids
  processes := h.processes
  current := h.current

theorem Owner.Once.close (h : s.Once) : s.close.Once where
  kept := by
    intro e he
    have hk := h.kept e he
    unfold Demux.accounts at hk
    show e.tx ∈ (s.dropped ++ (chanTxs s.chan ++ (backlogTxs s.backlog ++ owners s.demux.pending)))
      ++ ([] ++ s.demux.replies.map Prod.fst)
    simp only [List.mem_append] at hk ⊢
    rcases hk with hk | hk | hk
    · exact Or.inl (Or.inl hk)
    · exact Or.inl (Or.inr (Or.inr (Or.inr hk)))
    · exact Or.inr (Or.inr hk)
  once := h.once
  given := h.given
  ids := h.ids
  processes := h.processes
  current := fun _ htx => absurd htx List.not_mem_nil

theorem Owner.Once.relaunch (h : s.Once) (hpend : s.demux.pending = ∅)
    (ht : t.submitted = s.submitted ∧ t.demux = s.demux ∧ t.dropped = s.dropped ∧
      t.process = s.process + 1) : t.Once := by
  obtain ⟨hsub, hdemux, hdrop, hproc⟩ := ht
  constructor
  · rw [hsub, hdemux, hdrop]
    exact h.kept
  · rw [hsub]
    exact h.once
  · rw [hsub, hdemux]
    exact h.given
  · rw [hsub]
    exact h.ids
  · rw [hsub, hproc]
    exact fun e he => Nat.le_succ_of_le (h.processes e he)
  · rw [hdemux, hpend]
    exact fun _ htx => absurd htx List.not_mem_nil

end

end KatagoWs
