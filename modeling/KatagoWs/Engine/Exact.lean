import KatagoWs.Engine.Relaunch
import KatagoWs.Lib.Simulation

/-!
# What the callers of the engine get

Calls come from any number of callers, processes crash and are relaunched, queries wait in the
backlog, and the lines of all queries arrive interleaved.  The run is recorded: who called with
what, and which responses were read.

* `Answering`         the engine's side of the protocol: a response belongs to a query it was
                      given, answers it, and no turn of a query is answered more often than asked;
* `Owner.Fewer`       what a step can do that neither accepts, submits nor reads;
* `Traced.step`       each batch holds the responses of its own id, and no others;
* `replies_complete`  a caller gets one answer to its own query for each turn it asked for.
-/

namespace KatagoWs
open Lib Lib.Batches

/-- the calls accepted, by reply channel, and the responses read, by id -/
structure Dialogue where
  calls : List AnalyzeCall
  responses : List (String × TurnResponse)

/-- the responses of one id, in the order they were read -/
def Dialogue.of (t : Dialogue) (id : String) : List TurnResponse :=
  (t.responses.filter fun r => r.1 == id).map Prod.snd

def turnNumbers (turns : List TurnResponse) : List Nat := turns.map TurnResponse.turnNumber

def Owner.Waits (s : Owner) (cmd : AnalyzeCmd) : Prop :=
  .analyze cmd ∈ s.chan ∨ cmd ∈ s.backlog

section
variable (serde : Serde)

def Dialogue.note (s : Owner) (a : OwnerAction) (t : Dialogue) : Dialogue :=
  match a with
  | .send call =>
    match call.cmd s.calls with
    | none => t
    | some _ => { t with calls := t.calls ++ [call] }
  | .line text =>
    match readLine serde text with
    | some (id, .ok turn) => { t with responses := t.responses ++ [(id, turn)] }
    | _ => t
  | _ => t

def dialogueSys (supervised : Bool) : Sys (Owner × Dialogue) OwnerAction :=
  (ownerSys serde supervised).withHistory ⟨[], []⟩ (Dialogue.note serde)

variable (answers : AnalysisQuery → TurnResponse → Prop)

/-- `cmd` is what the call with the reply channel `tx` sends -/
structure AskedBy (calls : List AnalyzeCall) (tx : ReplyTx) (call : AnalyzeCall)
    (cmd : AnalyzeCmd) : Prop where
  accepted : calls[tx]? = some call
  sent : call.cmd tx = some cmd

/-- The engine: "one query yields one response line per analyzed turn".  A response names a query
that was given to a process and answers it, and answers no turn more often than it was asked. -/
def Answering (p : Owner × Dialogue) : OwnerAction → Prop
  | .line text =>
    ∀ id turn, readLine serde text = some (id, .ok turn) →
      ∃ e ∈ p.1.submitted, e.id = id ∧ ∃ call cmd, AskedBy p.2.calls e.tx call cmd ∧
        answers { cmd.query with id } turn ∧
        (turnNumbers (p.2.of id ++ [turn])).Subperm call.turns
  | _ => True

end

/-! ## the steps that neither accept, submit nor read -/

/-- queries leave the channel, the backlog and the table, and what is replied is an error -/
structure Owner.Fewer (s s' : Owner) : Prop where
  calls : s'.calls = s.calls
  submitted : s'.submitted = s.submitted
  nextId : s'.demux.nextId = s.demux.nextId
  positions : s'.demux.positions = s.demux.positions
  waits : ∀ cmd, s'.Waits cmd → s.Waits cmd
  pending : ∀ id b, s'.demux.pending.lookup id = some b → s.demux.pending.lookup id = some b
  replies : ∀ tx got, (tx, .ok got) ∈ s'.demux.replies → (tx, .ok got) ∈ s.demux.replies

theorem Owner.Fewer.refl (s : Owner) : s.Fewer s :=
  ⟨rfl, rfl, rfl, rfl, fun _ h => h, fun _ _ h => h, fun _ _ h => h⟩

theorem Owner.Fewer.trans {s t u : Owner} (h : s.Fewer t) (k : t.Fewer u) : s.Fewer u where
  calls := k.calls.trans h.calls
  submitted := k.submitted.trans h.submitted
  nextId := k.nextId.trans h.nextId
  positions := k.positions.trans h.positions
  waits cmd hc := h.waits cmd (k.waits cmd hc)
  pending id b hb := h.pending id b (k.pending id b hb)
  replies tx got hr := h.replies tx got (k.replies tx got hr)

theorem no_empty_batch {id : String} {b : Pending}
    (h : (∅ : PendingTable).lookup id = some b) {p : Prop} : p := by
  rw [AList.lookup_empty] at h
  cases h

theorem ok_before_errors {l errors : List (ReplyTx × Reply)}
    (herr : ∀ r ∈ errors, ∃ err, r.2 = .error err) {tx : ReplyTx} {got : List TurnResponse}
    (h : (tx, .ok got) ∈ l ++ errors) : (tx, .ok got) ∈ l := by
  rcases List.mem_append.mp h with h | h
  · exact h
  · obtain ⟨err, he⟩ := herr _ h
    cases he

section
variable {serde : Serde} {s t : Owner}

theorem Owner.fewer_failPending (s : Owner) (err : String) : s.Fewer (s.failPending err) where
  calls := rfl
  submitted := rfl
  nextId := rfl
  positions := rfl
  waits _ h := h
  pending _ _ h := no_empty_batch h
  replies tx got h := by
    refine ok_before_errors (fun r hr => ?_) h
    obtain ⟨entry, -, rfl⟩ := List.mem_map.mp hr
    exact ⟨err, rfl⟩

theorem Owner.fewer_failBacklog (s : Owner) (err : String) : s.Fewer (s.failBacklog err) where
  calls := rfl
  submitted := rfl
  nextId := rfl
  positions := rfl
  waits cmd h := by
    rcases h with h | h
    · exact Or.inl h
    · cases h
  pending _ _ h := h
  replies tx got h := by
    refine ok_before_errors (fun r hr => ?_) h
    obtain ⟨cmd, -, rfl⟩ := List.mem_map.mp hr
    exact ⟨err, rfl⟩

theorem Owner.fewer_close (s : Owner) : s.Fewer s.close where
  calls := rfl
  submitted := rfl
  nextId := rfl
  positions := rfl
  waits cmd h := by rcases h with h | h <;> cases h
  pending _ _ h := no_empty_batch h
  replies _ _ h := h

theorem Owner.fewer_quiet (s : Owner) (started : Bool) (status : Status) (backoff : Nat)
    (phase : OwnerPhase) (awaitsReady handles : Bool) (process : Nat) (acks : List ReplyTx) :
    s.Fewer { s with started, status, backoff, phase, awaitsReady, handles, process, acks } :=
  ⟨rfl, rfl, rfl, rfl, fun _ h => h, fun _ _ h => h, fun _ _ h => h⟩

theorem Owner.fewer_took {c : Cmd} {rest : List Cmd} (hchan : s.chan = c :: rest) :
    s.Fewer { s with chan := rest } where
  calls := rfl
  submitted := rfl
  nextId := rfl
  positions := rfl
  waits cmd h := by
    rcases h with h | h
    · refine Or.inl ?_
      rw [hchan]
      exact List.mem_cons_of_mem _ h
    · exact Or.inr h
  pending _ _ h := h
  replies _ _ h := h

theorem Owner.fewer_drained {cmd : AnalyzeCmd} {rest : List AnalyzeCmd}
    (hback : s.backlog = cmd :: rest) : s.Fewer { s with backlog := rest } where
  calls := rfl
  submitted := rfl
  nextId := rfl
  positions := rfl
  waits cmd' h := by
    rcases h with h | h
    · exact Or.inl h
    · refine Or.inr ?_
      rw [hback]
      exact List.mem_cons_of_mem _ h
  pending _ _ h := h
  replies _ _ h := h

theorem Owner.fewer_held {cmd : AnalyzeCmd} {rest : List Cmd}
    (hchan : s.chan = .analyze cmd :: rest) :
    s.Fewer ({ s with chan := rest }.waitCmd (.analyze cmd)) where
  calls := rfl
  submitted := rfl
  nextId := rfl
  positions := rfl
  waits cmd' h := by
    rcases h with h | h
    · exact (Owner.fewer_took hchan).waits cmd' (Or.inl h)
    · rcases List.mem_append.mp h with h | h
      · exact Or.inr h
      · rw [List.mem_singleton] at h
        refine Or.inl ?_
        rw [h, hchan]
        exact List.mem_cons_self ..
  pending _ _ h := h
  replies _ _ h := h

theorem Owner.fewer_closed (hs : s.closed = some t) : s.Fewer t := by
  unfold Owner.closed at hs
  obtain ⟨-, hs⟩ := Option.ite_none_left_eq_some.mp hs
  by_cases hl : s.loops = true
  · rw [if_pos hl] at hs
    cases hs
    exact s.fewer_close
  · rw [if_neg hl] at hs
    obtain ⟨-, hs⟩ := Option.ite_none_right_eq_some.mp hs
    cases hs
    exact (s.fewer_quiet _ _ _ _ _ _ _ _).trans (Owner.fewer_close _)

theorem Owner.fewer_exit {report : ExitReport} (hs : s.exit report = some t) : s.Fewer t := by
  unfold Owner.exit at hs
  obtain ⟨-, hs⟩ := Option.ite_none_right_eq_some.mp hs
  have hfail := s.fewer_failPending s!"katago process exited ({report.status})"
  by_cases hstay : (!s.supervised || !s.started) = true
  · simp only [hstay, if_true, Option.some.injEq] at hs
    rw [← hs]
    exact hfail.trans ((Owner.fewer_quiet _ _ _ _ _ _ _ _ _).trans (Owner.fewer_close _))
  · simp only [if_neg hstay, Option.some.injEq] at hs
    rw [← hs]
    exact hfail.trans (Owner.fewer_quiet _ _ _ _ _ _ _ _ _)

theorem Owner.fewer_wake {launched : Bool} (hs : s.wake launched = some t) : s.Fewer t := by
  unfold Owner.wake at hs
  obtain ⟨-, hs⟩ := Option.ite_none_right_eq_some.mp hs
  cases launched with
  | false =>
    cases hs
    exact s.fewer_quiet _ _ _ _ _ _ _ _
  | true =>
    cases hs
    exact s.fewer_quiet _ _ _ _ _ _ _ _

/-- **What a step can do**: accept a call, submit a query that waited, read a line, or none of
these. -/
theorem Owner.step_trace {a : OwnerAction} (hs : s.step serde a = some t) :
    (∃ call cmd, a = .send call ∧ call.cmd s.calls = some cmd ∧
      t = { s with chan := s.chan ++ [.analyze cmd], calls := s.calls + 1 }) ∨
    (∃ r cmd write, s.Waits cmd ∧ s.Fewer r ∧ t = r.submit serde cmd write ∧
      ∀ k, Dialogue.note serde s a k = k) ∨
    (∃ text, a = .line text ∧ t = { s with demux := s.demux.line serde text }) ∨
    (s.Fewer t ∧ ∀ k, Dialogue.note serde s a k = k) := by
  cases a with
  | send call =>
    change s.send call = some t at hs
    unfold Owner.send at hs
    obtain ⟨-, hs⟩ := Option.ite_none_right_eq_some.mp hs
    cases hcmd : call.cmd s.calls with
    | none =>
      rw [hcmd] at hs
      cases hs
      refine Or.inr (Or.inr (Or.inr ⟨Owner.Fewer.refl s, fun k => ?_⟩))
      show (match call.cmd s.calls with | none => k | some _ => _) = k
      rw [hcmd]
    | some cmd =>
      rw [hcmd] at hs
      cases hs
      exact Or.inl ⟨call, cmd, rfl, hcmd, rfl⟩
  | askShutdown ack =>
    change (if _ then _ else _) = some t at hs
    obtain ⟨-, hs⟩ := Option.ite_none_right_eq_some.mp hs
    cases hs
    refine Or.inr (Or.inr (Or.inr ⟨?_, fun _ => rfl⟩))
    refine ⟨rfl, rfl, rfl, rfl, fun cmd h => ?_, fun _ _ h => h, fun _ _ h => h⟩
    rcases h with h | h
    · rcases List.mem_append.mp h with h | h
      · exact Or.inl h
      · cases List.mem_singleton.mp h
    · exact Or.inr h
  | dropHandles =>
    change (if _ then _ else _) = some t at hs
    obtain ⟨-, hs⟩ := Option.ite_none_right_eq_some.mp hs
    cases hs
    exact Or.inr (Or.inr (Or.inr ⟨s.fewer_quiet _ _ _ _ _ _ _ _, fun _ => rfl⟩))
  | drain write =>
    change s.drainOne serde write = some t at hs
    unfold Owner.drainOne at hs
    split at hs
    · rename_i cmd rest hserve hback
      cases hs
      refine Or.inr (Or.inl ⟨_, cmd, write, Or.inr ?_, Owner.fewer_drained hback, rfl,
        fun _ => rfl⟩)
      rw [hback]
      exact List.mem_cons_self ..
    · cases hs
  | recv write =>
    change s.recv serde write = some t at hs
    unfold Owner.recv at hs
    split at hs
    · cases hs
    · rename_i c rest hchan
      by_cases hl : s.loops = true
      · rw [if_pos hl] at hs
        cases hs
        cases c with
        | analyze cmd =>
          refine Or.inr (Or.inl ⟨_, cmd, write, Or.inl ?_, Owner.fewer_took hchan, rfl,
            fun _ => rfl⟩)
          rw [hchan]
          exact List.mem_cons_self ..
        | shutdown ack =>
          refine Or.inr (Or.inr (Or.inr ⟨?_, fun _ => rfl⟩))
          exact (Owner.fewer_took hchan).trans ((Owner.fewer_failPending _ _).trans
            ((Owner.fewer_quiet _ _ _ _ _ _ _ _ _).trans (Owner.fewer_close _)))
      · rw [if_neg hl] at hs
        obtain ⟨-, hs⟩ := Option.ite_none_right_eq_some.mp hs
        cases hs
        refine Or.inr (Or.inr (Or.inr ⟨?_, fun _ => rfl⟩))
        cases c with
        | analyze cmd => exact Owner.fewer_held hchan
        | shutdown ack =>
          exact (Owner.fewer_took hchan).trans ((Owner.fewer_failBacklog _ _).trans
            ((Owner.fewer_quiet _ _ _ _ _ _ _ _ _).trans (Owner.fewer_close _)))
  | closed => exact Or.inr (Or.inr (Or.inr ⟨Owner.fewer_closed hs, fun _ => rfl⟩))
  | ready announced =>
    change s.ready announced = some t at hs
    unfold Owner.ready at hs
    obtain ⟨-, hs⟩ := Option.ite_none_right_eq_some.mp hs
    cases hs
    exact Or.inr (Or.inr (Or.inr ⟨s.fewer_quiet _ _ _ _ _ _ _ _, fun _ => rfl⟩))
  | line text =>
    change (if _ then _ else _) = some t at hs
    obtain ⟨-, hs⟩ := Option.ite_none_right_eq_some.mp hs
    cases hs
    exact Or.inr (Or.inr (Or.inl ⟨text, rfl, rfl⟩))
  | exit report => exact Or.inr (Or.inr (Or.inr ⟨Owner.fewer_exit hs, fun _ => rfl⟩))
  | wake launched => exact Or.inr (Or.inr (Or.inr ⟨Owner.fewer_wake hs, fun _ => rfl⟩))

end

/-! ## every batch holds the responses of its own id -/

structure Posed (answers : AnalysisQuery → TurnResponse → Prop) (t : Dialogue) (e : Sent)
    (call : AnalyzeCall) (cmd : AnalyzeCmd) : Prop where
  by_call : AskedBy t.calls e.tx call cmd
  answered : ∀ turn ∈ t.of e.id, answers { cmd.query with id := e.id } turn
  bounded : (turnNumbers (t.of e.id)).Subperm call.turns

def Complete (answers : AnalysisQuery → TurnResponse → Prop) (s : Owner) (t : Dialogue)
    (tx : ReplyTx) (got : List TurnResponse) : Prop :=
  ∃ e ∈ s.submitted, e.tx = tx ∧ ∃ call cmd, AskedBy t.calls tx call cmd ∧
    (turnNumbers got).Perm call.turns ∧
    ∀ turn ∈ got, answers { cmd.query with id := e.id } turn

/-- the batch of a query: the responses of its id so far -/
def Gathers (s : Owner) (t : Dialogue) (id : String) (b : Pending) : Prop :=
  ∃ e ∈ s.submitted, e.id = id ∧ e.tx = b.tx ∧ b.got = t.of id ∧
    ∃ call, t.calls[b.tx]? = some call ∧ b.expected = call.turns.length

/-- every response belongs to a query that was given to a process -/
structure Attributed (answers : AnalysisQuery → TurnResponse → Prop) (s : Owner) (t : Dialogue) :
    Prop where
  calls : t.calls.length = s.calls
  waits : ∀ cmd, s.Waits cmd → ∃ call, AskedBy t.calls cmd.tx call cmd
  known : ∀ r ∈ t.responses, ∃ e ∈ s.submitted, e.id = r.1
  asked : ∀ e ∈ s.submitted, ∃ call cmd, Posed answers t e call cmd

structure Traced (answers : AnalysisQuery → TurnResponse → Prop) (s : Owner) (t : Dialogue) :
    Prop extends Attributed answers s t where
  filling : Filling s.demux.pending
  pending : ∀ id b, s.demux.pending.lookup id = some b → Gathers s t id b
  replies : ∀ tx got, (tx, .ok got) ∈ s.demux.replies → Complete answers s t tx got
  positions : s.demux.positions = t.responses.length

theorem Dialogue.of_append (t : Dialogue) (id id' : String) (turn : TurnResponse) :
    ({ t with responses := t.responses ++ [(id, turn)] } : Dialogue).of id'
      = t.of id' ++ if id = id' then [turn] else [] := by
  unfold Dialogue.of
  show ((t.responses ++ [(id, turn)]).filter _).map _ = _
  rw [List.filter_append, List.map_append]
  by_cases h : id = id'
  · simp [h]
  · simp [h]

theorem AskedBy.append {calls : List AnalyzeCall} {tx : ReplyTx} {call : AnalyzeCall}
    {cmd : AnalyzeCmd} (h : AskedBy calls tx call cmd) (more : List AnalyzeCall) :
    AskedBy (calls ++ more) tx call cmd where
  accepted := by
    obtain ⟨hlt, -⟩ := List.getElem?_eq_some_iff.mp h.accepted
    rw [List.getElem?_append_left hlt]
    exact h.accepted
  sent := h.sent

section
variable {serde : Serde} {answers : AnalysisQuery → TurnResponse → Prop} {s s' : Owner}
  {t : Dialogue}

theorem Owner.Once.same_id (h : s.Once) {e e' : Sent} (he : e ∈ s.submitted)
    (he' : e' ∈ s.submitted) (hid : e.id = e'.id) : e = e' :=
  List.inj_on_of_nodup_map h.ids he he' hid

theorem Attributed.fresh (h : Attributed answers s t) (hI : s.Once) :
    t.of (queryId s.demux.nextId) = [] := by
  unfold Dialogue.of
  rw [List.map_eq_nil_iff, List.filter_eq_nil_iff]
  intro r hr heq
  obtain ⟨e, he, hid⟩ := h.known r hr
  obtain ⟨n, hn, hgiven⟩ := hI.given e he
  have hsame : n = s.demux.nextId :=
    queryId_injective (hgiven.symm.trans (hid.trans (eq_of_beq heq)))
  omega

theorem Attributed.fewer (h : Attributed answers s t) (hf : s.Fewer s') :
    Attributed answers s' t where
  calls := by
    rw [hf.calls]
    exact h.calls
  waits cmd hc := h.waits cmd (hf.waits cmd hc)
  known := by
    rw [hf.submitted]
    exact h.known
  asked := by
    rw [hf.submitted]
    exact h.asked

theorem Traced.fewer (h : Traced answers s t) (hf : s.Fewer s') : Traced answers s' t where
  toAttributed := h.toAttributed.fewer hf
  filling id b hb := h.filling id b (hf.pending id b hb)
  pending id b hb := by
    unfold Gathers
    rw [hf.submitted]
    exact h.pending id b (hf.pending id b hb)
  replies tx got hr := by
    unfold Complete
    rw [hf.submitted]
    exact h.replies tx got (hf.replies tx got hr)
  positions := by
    rw [hf.positions]
    exact h.positions

theorem Attributed.send (h : Attributed answers s t) {call : AnalyzeCall} {cmd : AnalyzeCmd}
    (hcmd : call.cmd s.calls = some cmd) :
    Attributed answers { s with chan := s.chan ++ [.analyze cmd], calls := s.calls + 1 }
      { t with calls := t.calls ++ [call] } where
  calls := by
    show (t.calls ++ [call]).length = s.calls + 1
    rw [List.length_append, h.calls]
    rfl
  waits cmd' hc := by
    have hold : s.Waits cmd' ∨ cmd' = cmd := by
      rcases hc with hc | hc
      · rcases List.mem_append.mp hc with hc | hc
        · exact Or.inl (Or.inl hc)
        · cases List.mem_singleton.mp hc
          exact Or.inr rfl
      · exact Or.inl (Or.inr hc)
    rcases hold with hold | rfl
    · obtain ⟨call', hasked⟩ := h.waits cmd' hold
      exact ⟨call', hasked.append [call]⟩
    · obtain ⟨htx, -, -⟩ := AnalyzeCall.cmd_some hcmd
      refine ⟨call, ?_, ?_⟩
      · show (t.calls ++ [call])[cmd'.tx]? = some call
        rw [htx, ← h.calls, List.getElem?_append_right (le_refl _), Nat.sub_self]
        rfl
      · rw [htx]
        exact hcmd
  known := h.known
  asked e he := by
    obtain ⟨call', cmd', hasked⟩ := h.asked e he
    exact ⟨call', cmd', hasked.by_call.append [call], hasked.answered, hasked.bounded⟩

theorem Traced.send (h : Traced answers s t) {call : AnalyzeCall} {cmd : AnalyzeCmd}
    (hcmd : call.cmd s.calls = some cmd) :
    Traced answers { s with chan := s.chan ++ [.analyze cmd], calls := s.calls + 1 }
      { t with calls := t.calls ++ [call] } where
  toAttributed := h.toAttributed.send hcmd
  filling := h.filling
  pending id b hb := by
    obtain ⟨e, he, hid, htx, hgot, call', hc, hexp⟩ := h.pending id b hb
    obtain ⟨hlt, -⟩ := List.getElem?_eq_some_iff.mp hc
    refine ⟨e, he, hid, htx, hgot, call', ?_, hexp⟩
    show (t.calls ++ [call])[b.tx]? = some call'
    rw [List.getElem?_append_left hlt]
    exact hc
  replies tx got hr := by
    obtain ⟨e, he, htx, call', cmd', hasked, hperm, hans⟩ := h.replies tx got hr
    exact ⟨e, he, htx, call', cmd', hasked.append [call], hperm, hans⟩
  positions := h.positions

theorem Attributed.submit (h : Attributed answers s t) {cmd : AnalyzeCmd} {call : AnalyzeCall}
    (hasked : AskedBy t.calls cmd.tx call cmd) (hfresh : t.of (queryId s.demux.nextId) = [])
    (write : Option String) : Attributed answers (s.submit serde cmd write) t where
  calls := h.calls
  waits := h.waits
  known r hr := by
    obtain ⟨e, he, hid⟩ := h.known r hr
    exact ⟨e, List.mem_append_left _ he, hid⟩
  asked e he := by
    rcases List.mem_append.mp he with he | he
    · exact h.asked e he
    · rw [List.mem_singleton] at he
      subst he
      refine ⟨call, cmd, hasked, ?_, ?_⟩
      · show ∀ turn ∈ t.of (queryId s.demux.nextId), _
        rw [hfresh]
        exact List.forall_mem_nil _
      · show (turnNumbers (t.of (queryId s.demux.nextId))).Subperm call.turns
        rw [hfresh]
        exact List.nil_subperm

theorem Traced.submit (h : Traced answers s t) {cmd : AnalyzeCmd} {call : AnalyzeCall}
    (hasked : AskedBy t.calls cmd.tx call cmd) (hfresh : t.of (queryId s.demux.nextId) = [])
    (write : Option String) : Traced answers (s.submit serde cmd write) t := by
  obtain ⟨-, hexp, hpos⟩ := AnalyzeCall.cmd_some hasked.sent
  have hold : ∀ e ∈ s.submitted, e ∈ (s.submit serde cmd write).submitted :=
    fun e he => List.mem_append_left _ he
  have hnew : ∃ e ∈ (s.submit serde cmd write).submitted,
      e.id = queryId s.demux.nextId ∧ e.tx = cmd.tx :=
    ⟨_, List.mem_append_right _ (List.mem_singleton.mpr rfl), rfl, rfl⟩
  refine ⟨h.toAttributed.submit hasked hfresh write,
    Demux.submit_filling serde h.filling hpos write, ?_, ?_, ?_⟩
  · intro id b hb
    have hcase : s.demux.pending.lookup id = some b ∨
        id = queryId s.demux.nextId ∧ b = ⟨cmd.expected, [], cmd.tx⟩ := by
      change (s.demux.submit serde cmd write).pending.lookup id = some b at hb
      rcases s.demux.submit_cases serde cmd write with ⟨hp, -⟩ | ⟨hp, -⟩
      · rw [hp] at hb
        by_cases hid : id = queryId s.demux.nextId
        · rw [hid, AList.lookup_insert, Option.some.injEq] at hb
          exact Or.inr ⟨hid, hb.symm⟩
        · rw [AList.lookup_insert_ne hid] at hb
          exact Or.inl hb
      · rw [hp] at hb
        exact Or.inl hb
    rcases hcase with hb | ⟨rfl, rfl⟩
    · obtain ⟨e, he, hrest⟩ := h.pending id b hb
      exact ⟨e, hold e he, hrest⟩
    · obtain ⟨e, he, hid, htx⟩ := hnew
      exact ⟨e, he, hid, htx, hfresh.symm, call, hasked.accepted, hexp⟩
  · intro tx got hr
    have hmem : (tx, .ok got) ∈ s.demux.replies := by
      change (tx, .ok got) ∈ (s.demux.submit serde cmd write).replies at hr
      rcases s.demux.submit_cases serde cmd write with ⟨-, hrep⟩ | ⟨-, err, hrep⟩
      · rw [hrep] at hr
        exact hr
      · rw [hrep] at hr
        refine ok_before_errors (fun r hr => ?_) hr
        rw [List.mem_singleton] at hr
        exact ⟨err, congrArg Prod.snd hr⟩
    obtain ⟨e, he, hrest⟩ := h.replies tx got hmem
    exact ⟨e, hold e he, hrest⟩
  · have hsame : (s.demux.submit serde cmd write).positions = s.demux.positions := by
      unfold Demux.submit
      cases hser : serde.toString { cmd.query with id := queryId s.demux.nextId } with
      | error err => simp only [hser]
      | ok line => cases write <;> simp only [hser]
    show (s.demux.submit serde cmd write).positions = _
    rw [hsame]
    exact h.positions

/-- an error for an id, or a line that means nothing to the owner -/
theorem Traced.error_line (h : Traced answers s t) {text id err : String}
    (hline : readLine serde text = some (id, .error err)) :
    Traced answers { s with demux := s.demux.line serde text } t := by
  refine h.fewer ?_
  rw [Demux.line_eq, hline]
  have hcases : deliver s.demux.pending id (.error err : Except String TurnResponse)
      = (s.demux.pending, []) ∨ ∃ b : Pending,
        deliver s.demux.pending id (.error err : Except String TurnResponse)
          = (s.demux.pending.erase id, [(b.tx, .error err)]) := by
    unfold deliver
    cases s.demux.pending.lookup id with
    | none => exact Or.inl rfl
    | some b => exact Or.inr ⟨b, rfl⟩
  refine ⟨rfl, rfl, rfl, rfl, fun _ hc => hc, ?_, ?_⟩
  · intro id' b' hb'
    change (deliver s.demux.pending id (.error err)).1.lookup id' = some b' at hb'
    rcases hcases with he | ⟨b, he⟩
    · rw [he] at hb'
      exact hb'
    · rw [he] at hb'
      by_cases hid : id' = id
      · rw [hid, AList.lookup_erase] at hb'
        cases hb'
      · rw [AList.lookup_erase_ne hid] at hb'
        exact hb'
  · intro tx got hr
    refine ok_before_errors (fun r hr => ?_) hr
    rcases hcases with he | ⟨b, he⟩
    · rw [he] at hr
      cases hr
    · rw [he] at hr
      rw [List.mem_singleton.mp hr]
      exact ⟨err, rfl⟩

theorem Attributed.asked_line (h : Attributed answers s t) (hI : s.Once) {id : String}
    {turn : TurnResponse} {e : Sent} {call : AnalyzeCall} {cmd : AnalyzeCmd}
    (he : e ∈ s.submitted) (hid : e.id = id)
    (hby : AskedBy t.calls e.tx call cmd) (hans : answers { cmd.query with id } turn)
    (hsub : (turnNumbers (t.of id ++ [turn])).Subperm call.turns) {e' : Sent}
    (he' : e' ∈ s.submitted) :
    ∃ call cmd,
      Posed answers { t with responses := t.responses ++ [(id, turn)] } e' call cmd := by
  by_cases hsame : e'.id = id
  · have heq : e' = e := hI.same_id he' he (hsame.trans hid.symm)
    subst heq
    obtain ⟨call', cmd', hasked⟩ := h.asked e' he'
    have hcall : call' = call :=
      Option.some.inj (hasked.by_call.accepted.symm.trans hby.accepted)
    subst hcall
    have hcmd : cmd' = cmd := Option.some.inj (hasked.by_call.sent.symm.trans hby.sent)
    subst hcmd
    refine ⟨call', cmd', hby, ?_, ?_⟩
    · intro turn' hturn
      rw [Dialogue.of_append, if_pos hid.symm, List.mem_append, List.mem_singleton] at hturn
      rcases hturn with hturn | rfl
      · exact hasked.answered turn' hturn
      · rw [hid]
        exact hans
    · rw [Dialogue.of_append, if_pos hid.symm, hid]
      exact hsub
  · obtain ⟨call', cmd', hasked⟩ := h.asked e' he'
    have hof : ({ t with responses := t.responses ++ [(id, turn)] } : Dialogue).of e'.id
        = t.of e'.id := by
      rw [Dialogue.of_append, if_neg (Ne.symm hsame), List.append_nil]
    refine ⟨call', cmd', hasked.by_call, ?_, ?_⟩
    · rw [hof]
      exact hasked.answered
    · rw [hof]
      exact hasked.bounded

/-- a response for a query that was given to a process, and is within its bounds -/
theorem Attributed.response (h : Attributed answers s t) (hI : s.Once) {id : String}
    {turn : TurnResponse} (hok : ∃ e ∈ s.submitted, e.id = id ∧ ∃ call cmd,
      AskedBy t.calls e.tx call cmd ∧ answers { cmd.query with id } turn ∧
      (turnNumbers (t.of id ++ [turn])).Subperm call.turns) :
    Attributed answers s { t with responses := t.responses ++ [(id, turn)] } where
  calls := h.calls
  waits := h.waits
  known r hr := by
    rcases List.mem_append.mp hr with hr | hr
    · exact h.known r hr
    · obtain ⟨e, he, hid, -⟩ := hok
      rw [List.mem_singleton.mp hr]
      exact ⟨e, he, hid⟩
  asked e' he' := by
    obtain ⟨e, he, hid, call, cmd, hby, hans, hsub⟩ := hok
    exact h.asked_line hI he hid hby hans hsub he'

/-- **A response** joins the batch of its id, and the last one releases the batch. -/
theorem Traced.turn_line (h : Traced answers s t) (hI : s.Once) {text id : String}
    {turn : TurnResponse}
    (hline : readLine serde text = some (id, .ok turn))
    (hok : ∃ e ∈ s.submitted, e.id = id ∧ ∃ call cmd, AskedBy t.calls e.tx call cmd ∧
      answers { cmd.query with id } turn ∧
      (turnNumbers (t.of id ++ [turn])).Subperm call.turns) :
    Traced answers { s with demux := s.demux.line serde text }
      { t with responses := t.responses ++ [(id, turn)] } := by
  have hattr := h.toAttributed.response hI hok
  obtain ⟨e, he, hid, call, cmd, hby, hans, hsub⟩ := hok
  have hdemux := Demux.line_eq serde s.demux text
  rw [hline] at hdemux
  -- batches of other ids are as they were
  have hother : ∀ id' b, id' ≠ id → s.demux.pending.lookup id' = some b →
      Gathers { s with demux := s.demux.line serde text }
        { t with responses := t.responses ++ [(id, turn)] } id' b := by
    intro id' b hne hb
    obtain ⟨e', he', hid', htx', hgot, hcall⟩ := h.pending id' b hb
    refine ⟨e', he', hid', htx', ?_, hcall⟩
    rw [Dialogue.of_append, if_neg (Ne.symm hne), List.append_nil]
    exact hgot
  have hkeep : ∀ tx got, (tx, .ok got) ∈ s.demux.replies →
      Complete answers { s with demux := s.demux.line serde text }
        { t with responses := t.responses ++ [(id, turn)] } tx got :=
    fun tx got hr => h.replies tx got hr
  refine ⟨⟨hattr.calls, hattr.waits, hattr.known, hattr.asked⟩,
    Demux.line_filling serde h.filling text, ?_, ?_, ?_⟩
  · intro id' b' hb'
    change (s.demux.line serde text).pending.lookup id' = some b' at hb'
    rw [hdemux] at hb'
    change (deliver s.demux.pending id (.ok turn)).1.lookup id' = some b' at hb'
    by_cases hne : id' = id
    · subst hne
      unfold deliver at hb'
      cases hb : s.demux.pending.lookup id' with
      | none =>
        rw [hb] at hb'
        change s.demux.pending.lookup id' = some b' at hb'
        rw [hb] at hb'
        cases hb'
      | some b =>
        obtain ⟨e', he', hid', htx', hgot, call', hcall', hexp⟩ := h.pending id' b hb
        rw [hb] at hb'
        by_cases hlen : b.got.length + 1 < b.expected
        · simp only [Batch.take_more b turn hlen, AList.lookup_insert, Option.some.injEq] at hb'
          rw [← hb']
          refine ⟨e', he', hid', htx', ?_, call', hcall', hexp⟩
          show b.got ++ [turn] = _
          rw [Dialogue.of_append, if_pos rfl, hgot]
        · simp only [Batch.take_last b turn (not_lt.mp hlen), AList.lookup_erase] at hb'
          cases hb'
    · rw [deliver_lookup_ne _ hne] at hb'
      exact hother id' b' hne hb'
  · intro tx got hr
    change (tx, .ok got) ∈ (s.demux.line serde text).replies at hr
    rw [hdemux] at hr
    rcases List.mem_append.mp hr with hr | hr
    · exact hkeep tx got hr
    · change (tx, .ok got) ∈ (deliver s.demux.pending id (.ok turn)).2 at hr
      unfold deliver at hr
      cases hb : s.demux.pending.lookup id with
      | none =>
        rw [hb] at hr
        cases hr
      | some b =>
        obtain ⟨e', he', hid', htx', hgot, call', hcall', hexp⟩ := h.pending id b hb
        rw [hb] at hr
        by_cases hlen : b.got.length + 1 < b.expected
        · simp only [Batch.take_more b turn hlen] at hr
          cases hr
        · simp only [Batch.take_last b turn (not_lt.mp hlen), List.mem_singleton] at hr
          have heq : e' = e := hI.same_id he' he (hid'.trans hid.symm)
          subst heq
          have hcall : call' = call := by
            rw [← htx'] at hcall'
            exact Option.some.inj (hcall'.symm.trans hby.accepted)
          subst hcall
          obtain ⟨rfl, hgot'⟩ := Prod.mk.inj hr
          cases hgot'
          refine ⟨e', he, htx', call', cmd, ?_, ?_, ?_⟩
          · show AskedBy t.calls b.tx call' cmd
            rw [← htx']
            exact hby
          · rw [hgot]
            refine hsub.perm_of_length_le ?_
            show call'.turns.length ≤ (turnNumbers (t.of id ++ [turn])).length
            unfold turnNumbers
            rw [List.length_map, List.length_append, ← hgot, ← hexp]
            exact not_lt.mp hlen
          · obtain ⟨call₁, cmd₁, hasked₁⟩ := hattr.asked e' he
            have hsame : call₁ = call' :=
              Option.some.inj (hasked₁.by_call.accepted.symm.trans hby.accepted)
            subst hsame
            have hsame : cmd₁ = cmd :=
              Option.some.inj (hasked₁.by_call.sent.symm.trans hby.sent)
            subst hsame
            intro turn' hturn
            refine hasked₁.answered turn' ?_
            rw [Dialogue.of_append, if_pos hid.symm, hid, ← hgot]
            exact hturn
  · show (s.demux.line serde text).positions = (t.responses ++ [(id, turn)]).length
    rw [hdemux, List.length_append, ← h.positions]
    rfl

theorem Traced.step (h : Traced answers s t) (hI : s.Once) {a : OwnerAction}
    (hok : Answering serde answers (s, t) a) (hs : s.step serde a = some s') :
    Traced answers s' (Dialogue.note serde s a t) := by
  rcases Owner.step_trace hs with ⟨call, cmd, rfl, hcmd, rfl⟩ |
    ⟨r, cmd, write, hwaits, hf, rfl, hn⟩ | ⟨text, rfl, rfl⟩ | ⟨hf, hn⟩
  · show Traced answers _ (match call.cmd s.calls with | none => t | some _ => _)
    rw [hcmd]
    exact h.send hcmd
  · rw [hn]
    obtain ⟨call, hasked⟩ := h.waits cmd hwaits
    refine (h.fewer hf).submit hasked ?_ write
    rw [hf.nextId]
    exact h.fresh hI
  · show Traced answers _ (match readLine serde text with
      | some (id, .ok turn) => _
      | _ => t)
    cases hline : readLine serde text with
    | none =>
      have hsame : s.demux.line serde text = s.demux := by
        rw [Demux.line_eq, hline]
      rw [hsame]
      exact h
    | some r =>
      obtain ⟨id, x⟩ := r
      cases x with
      | error err => exact h.error_line hline
      | ok turn => exact h.turn_line hI hline (hok id turn hline)
  · rw [hn]
    exact h.fewer hf

theorem Traced.initial (supervised : Bool) :
    Traced answers (Owner.initial supervised) ⟨[], []⟩ where
  filling := filling_empty
  calls := rfl
  waits cmd h := by rcases h with h | h <;> cases h
  known _ h := by cases h
  asked _ h := by cases h
  pending _ _ h := no_empty_batch h
  replies _ _ h := by cases h
  positions := rfl

theorem traced_run {supervised : Bool} {p : Owner × Dialogue}
    (h : (dialogueSys serde supervised).ReachableIf (Answering serde answers) p) :
    p.1.Inv ∧ Traced answers p.1 p.2 := by
  refine h.rule (I := fun p : Owner × Dialogue => p.1.Inv ∧ Traced answers p.1 p.2) ?_ ?_
  · rintro ⟨s, t⟩ ⟨hinit, hstart⟩
    change s = Owner.initial supervised at hinit
    change t = ⟨[], []⟩ at hstart
    rw [hinit, hstart]
    exact ⟨Owner.Inv.initial supervised, Traced.initial supervised⟩
  · rintro ⟨s, t⟩ a ⟨s', t'⟩ ⟨hI, hT⟩ hok hs
    obtain ⟨hstep, hnote⟩ := Sys.withHistory_step hs
    refine ⟨hI.step hstep, ?_⟩
    rw [show t' = Dialogue.note serde s a t from hnote]
    exact hT.step hI.once hok hstep

end

/-! ## what a caller gets -/

/-- What the callers have, at any point of a run. -/
structure Exact (answers : AnalysisQuery → TurnResponse → Prop) (s : Owner) (t : Dialogue) :
    Prop where
  /-- a successful reply answers the caller's own query, once for each turn asked -/
  replied : ∀ tx got, (tx, .ok got) ∈ s.demux.replies → Complete answers s t tx got
  /-- every call accepted is in one place: waiting, pending, replied to or dropped -/
  kept : s.holders.Perm (List.range t.calls.length)
  /-- no caller has two replies, or one and a query still pending -/
  single : s.demux.accounts.Nodup
  /-- a query is pending only as long as one of its turns is unanswered -/
  pending : ∀ id b, s.demux.pending.lookup id = some b → Gathers s t id b ∧
    (t.of id).length < b.expected
  /-- the meter counts the responses read, over all processes -/
  positions : s.demux.positions = t.responses.length

theorem Traced.exact {answers : AnalysisQuery → TurnResponse → Prop} {s : Owner} {t : Dialogue}
    (hT : Traced answers s t) (hI : s.Inv) : Exact answers s t := by
  refine
    { replied := hT.replies
      kept := ?_
      single := ?_
      pending := ?_
      positions := hT.positions }
  · rw [hT.calls]
    exact hI.accounts.accounted
  · have hnodup : s.holders.Nodup := hI.accounts.nodup
    unfold Owner.holders at hnodup
    exact (List.nodup_append.mp (List.nodup_append.mp
      (List.nodup_append.mp hnodup).2.1).2.1).2.1
  · intro id b hb
    have hgather := hT.pending id b hb
    refine ⟨hgather, ?_⟩
    obtain ⟨e, -, -, -, hgot, -⟩ := hgather
    rw [← hgot]
    exact hT.filling id b hb

/-- **Replies are complete.**  Whatever the calls, crashes, relaunches and the order of the lines:
with an engine that keeps its side of the protocol, a caller whose call succeeds has one answer
to its own query for each turn it asked for, and nothing else. -/
theorem replies_complete {serde : Serde} {answers : AnalysisQuery → TurnResponse → Prop}
    {supervised : Bool} {s : Owner} {t : Dialogue}
    (h : (dialogueSys serde supervised).ReachableIf (Answering serde answers) (s, t)) :
    Exact answers s t := by
  obtain ⟨hI, hT⟩ := traced_run h
  exact hT.exact hI

/-! The query of the one caller waits out a crash in the backlog; the next process answers it,
the last turn first. -/

def heldActions : List OwnerAction :=
  [.ready true, .exit ⟨"signal: 9", []⟩, .send oneMoveCall, .recv none, .wake true, .drain none,
    .line "\x7b\"id\":\"q0\",\"turnNumber\":1\x7d",
    .line "\x7b\"id\":\"q0\",\"warning\":\"slow\"\x7d",
    .line "\x7b\"id\":\"q0\",\"turnNumber\":0\x7d"]

def heldEnd : Owner × Dialogue :=
  ((dialogueSys oneMoveSerde true).exec (Owner.initial true, ⟨[], []⟩) heldActions).getD
    (Owner.initial true, ⟨[], []⟩)

theorem heldActions_answering :
    (dialogueSys oneMoveSerde true).Meets
      (Answering oneMoveSerde fun q turn => turn.turnNumber ∈ q.analyzeTurns)
      (Owner.initial true, ⟨[], []⟩) heldActions := by
  have hby : AskedBy [oneMoveCall] 0 oneMoveCall ((oneMoveCall.cmd 0).get rfl) := ⟨rfl, rfl⟩
  refine Sys.Meets.cons trivial rfl (.cons trivial rfl (.cons trivial rfl (.cons trivial rfl
    (.cons trivial rfl (.cons trivial rfl (.cons ?_ rfl (.cons ?_ rfl (.cons ?_ rfl trivial))))))))
  · intro id turn hread
    cases hread
    refine ⟨_, List.mem_singleton.mpr rfl, rfl, _, _, hby, ?_, ?_⟩
    · decide
    · decide
  · intro id turn hread
    cases hread
  · intro id turn hread
    cases hread
    refine ⟨_, List.mem_singleton.mpr rfl, rfl, _, _, hby, ?_, ?_⟩
    · decide
    · decide

theorem heldEnd_reachable :
    (dialogueSys oneMoveSerde true).ReachableIf
      (Answering oneMoveSerde fun q turn => turn.turnNumber ∈ q.analyzeTurns) heldEnd :=
  ⟨(Owner.initial true, ⟨[], []⟩), heldActions, ⟨rfl, rfl⟩, rfl, heldActions_answering⟩

theorem replies_complete_held :
    Exact (fun q turn => turn.turnNumber ∈ q.analyzeTurns) heldEnd.1 heldEnd.2 ∧
      heldEnd.1.demux.replies = [(0, .ok [oneMoveTurn 1, oneMoveTurn 0])] :=
  ⟨replies_complete heldEnd_reachable, rfl⟩

end KatagoWs
