import Mathlib.Data.List.Range
import KatagoWs.Engine.Katago
import KatagoWs.Lib.Batch
import KatagoWs.Lib.Run

/-!
# The replies of one engine process

The owner task gives every query an id, writes it to the process, and keeps a table of what is
pending; each line the process writes names the query it belongs to.  `handleLine` and `submit`
are the owner's two operations on the table.

* `readLine`          the one thing a line can mean: a result, or an error, for an id;
* `handleLine_eq`     `handleLine` as the delivery of what the line means;
* `Demux.Ok`          every call answered at most once, and every open one in the table once;
* `OneProcess`        callers and one process, in any interleaving of calls and lines;
* `follow`            what becomes of a query, from the lines of its own id alone;
* `replies_exact`     every caller gets its own query's responses, or its own query's error, and
                      nothing else.

`Serde` stands for `serde_json`; a reply channel is the number of channels made before it.
-/

namespace KatagoWs
open Lib Lib.Batches

/-! ## queries -/

structure OverrideSettings where
  reportAnalysisWinratesAs : String
  humanSlProfile : Option String
deriving DecidableEq, Repr

def OverrideSettings.new (humanProfile : Option String) : OverrideSettings :=
  { reportAnalysisWinratesAs := REPORT_PERSPECTIVE.asKatagoSetting
    humanSlProfile := humanProfile }

structure AnalysisQuery where
  id : String
  rules : Rules
  komi : ℚ
  boardXSize : Nat
  boardYSize : Nat
  initialStones : List ColoredMove
  moves : List ColoredMove
  analyzeTurns : List Nat
  maxVisits : Nat
  analysisPvLen : Nat
  includeOwnership : Bool
  includeOwnershipStdev : Bool
  includePolicy : Bool
  priority : Int
  overrideSettings : OverrideSettings
deriving DecidableEq, Repr

/-- a reply channel, by the number of channels made before it -/
abbrev ReplyTx := Nat

abbrev Reply := Except String (List TurnResponse)

/-- A submitted request: the query, the expected turn count, and the reply channel. -/
structure AnalyzeCmd where
  query : AnalysisQuery
  expected : Nat
  tx : ReplyTx
deriving DecidableEq, Repr

structure AnalyzeCall where
  game : ParsedGame
  cfg : EngineConfig
  turns : List Nat
  maxVisits : Nat
  priority : Int
  humanProfile : Option String

/-- What `analyze` sends to the owner; a call for no turns returns at once. -/
def AnalyzeCall.cmd (call : AnalyzeCall) (tx : ReplyTx) : Option AnalyzeCmd :=
  let expected := call.turns.length
  if expected = 0 then none
  else
    let query : AnalysisQuery := {
      -- assigned by the owner
      id := ""
      rules := call.game.rules
      komi := call.game.komi
      boardXSize := call.game.boardSize
      boardYSize := call.game.boardSize
      initialStones := call.game.initialStones
      moves := call.game.moves
      analyzeTurns := call.turns
      maxVisits := call.maxVisits
      analysisPvLen := call.cfg.analysisPvLen
      includeOwnership := call.cfg.includeOwnership
      includeOwnershipStdev := call.cfg.includeOwnershipStdev
      includePolicy := call.cfg.includePolicy
      priority := call.priority
      overrideSettings := .new call.humanProfile }
    some { query, expected, tx }

/-! ## the pending table -/

/-- `serde_json` at the types of the protocol -/
structure Serde where
  fromStr : String → Option Json
  fromValue : Json → Option TurnResponse
  toString : AnalysisQuery → Except String String

/-- One in-flight query: how many responses to expect, those so far, where they go. -/
abbrev Pending := Batch TurnResponse ReplyTx

abbrev PendingTable := Batches String TurnResponse ReplyTx

def queryId (n : Nat) : String := s!"q{n}"

section
variable (serde : Serde)

/-- Demux one response line into the pending table: the table, the replies sent, and whether
the line was an analyzed turn. -/
def handleLine (pending : PendingTable) (line : String) :
    PendingTable × List (ReplyTx × Reply) × Bool :=
  match serde.fromStr line with
  | none => (pending, [], false)
  | some value =>
    let id := (value.get "id").bind Json.asStr
    match (value.get "error").bind Json.asStr with
    | some err =>
      match id with
      | some id =>
        match pending.lookup id with
        | some req => (pending.erase id, [(req.tx, .error err)], false)
        | none => (pending, [], false)
      | none => (pending, [], false)
    | none =>
      match (value.get "warning").bind Json.asStr with
      | some _ => (pending, [], false)
      | none =>
        match id with
        | none => (pending, [], false)
        | some id =>
          match serde.fromValue value with
          | none => (pending, [], false)
          | some turn =>
            match pending.lookup id with
            | none => (pending, [], true)
            | some req =>
              let got := req.got ++ [turn]
              -- the whole batch goes out once the final turn has arrived
              if req.expected ≤ got.length then (pending.erase id, [(req.tx, .ok got)], true)
              else (pending.insert id { req with got }, [], true)

structure Demux where
  nextId : Nat
  pending : PendingTable
  replies : List (ReplyTx × Reply)
  positions : Nat

/-- Assign the query an id, write it, and track its reply; `write` is the error of the write,
if it fails. -/
def Demux.submit (d : Demux) (cmd : AnalyzeCmd) (write : Option String) : Demux :=
  let id := queryId d.nextId
  let query := { cmd.query with id }
  let d := { d with nextId := d.nextId + 1 }
  match serde.toString query with
  | .error err => { d with replies := d.replies ++ [(cmd.tx, .error s!"serialize query: {err}")] }
  | .ok _ =>
    match write with
    | some err =>
      { d with replies := d.replies ++ [(cmd.tx, .error s!"write to katago: {err}")] }
    | none =>
      let req : Pending := { expected := cmd.expected, got := [], tx := cmd.tx }
      { d with pending := d.pending.insert id req }

def Demux.line (d : Demux) (line : String) : Demux :=
  let (pending, sent, counted) := handleLine serde d.pending line
  { d with
    pending
    replies := d.replies ++ sent
    positions := if counted then d.positions + 1 else d.positions }

def Demux.repliesTo (d : Demux) (tx : ReplyTx) : List Reply :=
  (d.replies.filter fun r => r.1 == tx).map Prod.snd

/-! ## what a line means -/

def readLine (line : String) : Option (String × Except String TurnResponse) := do
  let value ← serde.fromStr line
  let id ← (value.get "id").bind Json.asStr
  match (value.get "error").bind Json.asStr with
  | some err => some (id, .error err)
  | none =>
    if ((value.get "warning").bind Json.asStr).isSome then none
    else (serde.fromValue value).map fun turn => (id, .ok turn)

/-- **Demultiplexing**: a line is delivered to the id it names, and to no other. -/
theorem handleLine_eq (pending : PendingTable) (line : String) :
    handleLine serde pending line =
      match readLine serde line with
      | none => (pending, [], false)
      | some (id, x) => ((deliver pending id x).1, (deliver pending id x).2, x.isOk) := by
  unfold handleLine readLine
  cases serde.fromStr line with
  | none => rfl
  | some value =>
    cases herr : (value.get "error").bind Json.asStr with
    | some err =>
      cases hid : (value.get "id").bind Json.asStr with
      | none => simp [herr, hid]
      | some id =>
        cases hreq : pending.lookup id with
        | none => simp [herr, hid, hreq, deliver, Except.isOk, Except.toBool]
        | some req => simp [herr, hid, hreq, deliver, Batch.take, Except.isOk, Except.toBool]
    | none =>
      cases hid : (value.get "id").bind Json.asStr with
      | none => cases hw : (value.get "warning").bind Json.asStr <;> simp [herr, hid, hw]
      | some id =>
        cases hw : (value.get "warning").bind Json.asStr with
        | some w => simp [herr, hid, hw]
        | none =>
          cases hv : serde.fromValue value with
          | none => simp [herr, hid, hw, hv]
          | some turn =>
            cases hreq : pending.lookup id with
            | none => simp [herr, hid, hw, hv, hreq, deliver, Except.isOk, Except.toBool]
            | some req =>
              by_cases hlen : req.expected ≤ req.got.length + 1
              · simp [herr, hid, hw, hv, hreq, deliver, Batch.take, hlen, Except.isOk,
                  Except.toBool]
              · simp [herr, hid, hw, hv, hreq, deliver, Batch.take, hlen, Except.isOk,
                  Except.toBool]

/-! ## the table and its callers -/

/-- the channels the owner has been given, by what became of them -/
def Demux.accounts (d : Demux) : List ReplyTx := owners d.pending ++ d.replies.map Prod.fst

def Demux.Ids (d : Demux) : Prop := ∀ id ∈ d.pending, ∃ n < d.nextId, id = queryId n

theorem queryId_injective : Function.Injective queryId := by
  intro m n h
  have hlist : (Nat.repr m).toList = (Nat.repr n).toList := by
    have h' := congrArg String.toList h
    simpa [queryId, toString] using h'
  rw [Nat.toList_repr, Nat.toList_repr] at hlist
  have hdigits := congrArg (fun ds => Nat.ofDigitChars 10 ds 0) hlist
  simpa using hdigits

theorem Demux.Ids.fresh {d : Demux} (h : d.Ids) : d.pending.lookup (queryId d.nextId) = none := by
  rw [AList.lookup_eq_none]
  intro hmem
  obtain ⟨n, hn, hid⟩ := h _ hmem
  have := queryId_injective hid
  omega

theorem Demux.line_eq (d : Demux) (line : String) :
    d.line serde line =
      match readLine serde line with
      | none => d
      | some (id, x) =>
        { d with
          pending := (deliver d.pending id x).1
          replies := d.replies ++ (deliver d.pending id x).2
          positions := if x.isOk then d.positions + 1 else d.positions } := by
  unfold Demux.line
  rw [handleLine_eq]
  cases readLine serde line with
  | none =>
    show ({ d with replies := d.replies ++ [] } : Demux) = d
    rw [List.append_nil]
  | some r => rfl

/-- What `submit` can do: the query is tracked under its id, or answered with an error. -/
theorem Demux.submit_cases (d : Demux) (cmd : AnalyzeCmd) (write : Option String) :
    ((d.submit serde cmd write).pending
        = d.pending.insert (queryId d.nextId) ⟨cmd.expected, [], cmd.tx⟩ ∧
      (d.submit serde cmd write).replies = d.replies) ∨
    ((d.submit serde cmd write).pending = d.pending ∧
      ∃ err, (d.submit serde cmd write).replies = d.replies ++ [(cmd.tx, .error err)]) := by
  unfold Demux.submit
  cases hser : serde.toString { cmd.query with id := queryId d.nextId } with
  | error err =>
    right
    simp only [hser, true_and]
    exact ⟨_, rfl⟩
  | ok line =>
    cases write with
    | some err =>
      right
      simp only [hser, true_and]
      exact ⟨_, rfl⟩
    | none =>
      left
      simp only [hser, and_self]

theorem Demux.submit_nextId (d : Demux) (cmd : AnalyzeCmd) (write : Option String) :
    (d.submit serde cmd write).nextId = d.nextId + 1 := by
  unfold Demux.submit
  cases hser : serde.toString { cmd.query with id := queryId d.nextId } with
  | error err => simp only [hser]
  | ok line => cases write <;> simp only [hser]

theorem Demux.line_accounts (d : Demux) (line : String) :
    (d.line serde line).accounts.Perm d.accounts := by
  rw [Demux.line_eq]
  cases readLine serde line with
  | none => exact List.Perm.refl _
  | some r =>
    obtain ⟨id, x⟩ := r
    have hdel := deliver_owners d.pending id x
    unfold Demux.accounts
    show (owners (deliver d.pending id x).1
      ++ (d.replies ++ (deliver d.pending id x).2).map Prod.fst).Perm _
    rw [List.map_append]
    calc owners (deliver d.pending id x).1
          ++ (d.replies.map Prod.fst ++ (deliver d.pending id x).2.map Prod.fst)
        |>.Perm (owners (deliver d.pending id x).1
          ++ ((deliver d.pending id x).2.map Prod.fst ++ d.replies.map Prod.fst)) :=
          List.perm_append_comm.append_left _
      _ |>.Perm (owners d.pending ++ d.replies.map Prod.fst) := by
          rw [← List.append_assoc]
          exact hdel.append_right _

theorem Demux.submit_accounts {d : Demux} (h : d.Ids) (cmd : AnalyzeCmd) (write : Option String) :
    (d.submit serde cmd write).accounts.Perm (cmd.tx :: d.accounts) := by
  unfold Demux.accounts
  rcases d.submit_cases serde cmd write with ⟨hp, hr⟩ | ⟨hp, err, hr⟩
  · rw [hp, hr, owners_insert_new h.fresh, List.cons_append]
  · rw [hp, hr, List.map_append, List.map_cons, List.map_nil, ← List.append_assoc]
    exact List.perm_append_comm

theorem Demux.line_ids {d : Demux} (h : d.Ids) (line : String) : (d.line serde line).Ids := by
  rw [Demux.line_eq]
  cases readLine serde line with
  | none => exact h
  | some r => exact fun id hid => h id (deliver_mem hid)

theorem Demux.submit_ids {d : Demux} (h : d.Ids) (cmd : AnalyzeCmd) (write : Option String) :
    (d.submit serde cmd write).Ids := by
  intro id hid
  rw [d.submit_nextId]
  rcases d.submit_cases serde cmd write with ⟨hp, -⟩ | ⟨hp, -⟩
  · rw [hp, AList.mem_insert] at hid
    rcases hid with rfl | hid
    · exact ⟨d.nextId, Nat.lt_succ_self _, rfl⟩
    · obtain ⟨n, hn, rfl⟩ := h id hid
      exact ⟨n, Nat.lt_succ_of_lt hn, rfl⟩
  · rw [hp] at hid
    obtain ⟨n, hn, rfl⟩ := h id hid
    exact ⟨n, Nat.lt_succ_of_lt hn, rfl⟩

theorem Demux.line_filling {d : Demux} (h : Filling d.pending) (line : String) :
    Filling (d.line serde line).pending := by
  rw [Demux.line_eq]
  cases readLine serde line with
  | none => exact h
  | some r => exact deliver_filling h r.1 r.2

theorem Demux.submit_filling {d : Demux} (h : Filling d.pending) {cmd : AnalyzeCmd}
    (hcmd : 0 < cmd.expected) (write : Option String) :
    Filling (d.submit serde cmd write).pending := by
  rcases d.submit_cases serde cmd write with ⟨hp, -⟩ | ⟨hp, -⟩
  · rw [hp]
    exact insert_filling h _ hcmd
  · rw [hp]
    exact h

theorem AnalyzeCall.cmd_some {call : AnalyzeCall} {tx : ReplyTx} {cmd : AnalyzeCmd}
    (h : call.cmd tx = some cmd) :
    cmd.tx = tx ∧ cmd.expected = call.turns.length ∧ 0 < cmd.expected := by
  unfold AnalyzeCall.cmd at h
  simp only [Option.ite_none_left_eq_some, Option.some.injEq] at h
  obtain ⟨hpos, rfl⟩ := h
  exact ⟨rfl, rfl, Nat.pos_of_ne_zero hpos⟩

end

/-! ## callers and one process -/

inductive ProcessEvent where
  | analyze (call : AnalyzeCall) (write : Option String)
  | line (text : String)

/-- the calls made so far, and the owner's side of them -/
structure OneProcess where
  calls : Nat
  demux : Demux

section
variable (serde : Serde)

def OneProcess.step (s : OneProcess) : ProcessEvent → Option OneProcess
  | .analyze call write =>
    match call.cmd s.calls with
    -- no turns: the caller has its empty answer already
    | none => some s
    | some cmd => some { calls := s.calls + 1, demux := s.demux.submit serde cmd write }
  | .line text => some { s with demux := s.demux.line serde text }

def OneProcess.initial : OneProcess := ⟨0, ⟨0, ∅, [], 0⟩⟩

def oneProcess : Sys OneProcess ProcessEvent where
  init s := s = OneProcess.initial
  step := OneProcess.step serde

def ProcessEvent.own (id : String) : ProcessEvent → Option (Except String TurnResponse)
  | .analyze _ _ => none
  | .line text => (readLine serde text).bind fun r => if r.1 = id then some r.2 else none

/-- the responses and errors of `id`, in the order they arrive -/
def ownLines (id : String) (events : List ProcessEvent) : List (Except String TurnResponse) :=
  events.filterMap (ProcessEvent.own serde id)

/-- What a call can do: nothing, when it asks for no turns, or a query under a new channel. -/
theorem OneProcess.step_analyze {s t : OneProcess} {call : AnalyzeCall} {write : Option String}
    (hs : (oneProcess serde).step s (.analyze call write) = some t) :
    (call.cmd s.calls = none ∧ t = s) ∨
      ∃ cmd, call.cmd s.calls = some cmd ∧
        t = ⟨s.calls + 1, s.demux.submit serde cmd write⟩ := by
  cases hc : call.cmd s.calls with
  | none =>
    have hst : s = t := by simpa [oneProcess, OneProcess.step, hc] using hs
    exact Or.inl ⟨rfl, hst.symm⟩
  | some cmd =>
    have ht : OneProcess.mk (s.calls + 1) (s.demux.submit serde cmd write) = t := by
      simpa [oneProcess, OneProcess.step, hc] using hs
    exact Or.inr ⟨cmd, rfl, ht.symm⟩

structure OneProcess.Ok (s : OneProcess) : Prop where
  ids : s.demux.Ids
  accounted : s.demux.accounts.Perm (List.range s.calls)
  filling : Filling s.demux.pending

theorem OneProcess.Ok.init {s : OneProcess} (h : (oneProcess serde).init s) : s.Ok := by
  rw [show s = OneProcess.initial from h]
  exact ⟨fun id hid => absurd hid (AList.notMem_empty id), List.Perm.refl _, filling_empty⟩

theorem OneProcess.Ok.step {s t : OneProcess} {event : ProcessEvent} (h : s.Ok)
    (hs : (oneProcess serde).step s event = some t) : t.Ok := by
  cases event with
  | line text =>
    cases hs
    exact ⟨Demux.line_ids serde h.ids text,
      (Demux.line_accounts serde _ text).trans h.accounted,
      Demux.line_filling serde h.filling text⟩
  | analyze call write =>
    rcases OneProcess.step_analyze serde hs with ⟨-, rfl⟩ | ⟨cmd, hc, rfl⟩
    · exact h
    · obtain ⟨htx, -, hpos⟩ := AnalyzeCall.cmd_some hc
      refine ⟨Demux.submit_ids serde h.ids cmd write, ?_,
        Demux.submit_filling serde h.filling hpos write⟩
      calc (s.demux.submit serde cmd write).accounts
          |>.Perm (cmd.tx :: s.demux.accounts) := Demux.submit_accounts serde h.ids cmd write
        _ |>.Perm (s.calls :: List.range s.calls) := by
          rw [htx]
          exact h.accounted.cons _
        _ |>.Perm (List.range (s.calls + 1)) := by
          rw [List.range_succ]
          exact (List.perm_append_singleton s.calls (List.range s.calls)).symm

theorem OneProcess.Ok.exec {s t : OneProcess} {events : List ProcessEvent} (h : s.Ok)
    (he : (oneProcess serde).exec s events = some t) : t.Ok :=
  Sys.exec_inv (fun _ _ _ hs _ ht => OneProcess.Ok.step serde hs ht) h
    (Sys.Meets.trivial s events) he

theorem replies_grow {s t : OneProcess} {events : List ProcessEvent}
    (he : (oneProcess serde).exec s events = some t) {r : ReplyTx × Reply}
    (hr : r ∈ s.demux.replies) : r ∈ t.demux.replies := by
  refine Sys.exec_rel (R := fun s t => r ∈ s.demux.replies → r ∈ t.demux.replies)
    (fun _ h => h) (fun _ _ _ h1 h2 h => h2 (h1 h)) ?_ he hr
  intro s event t hs h
  cases event with
  | line text =>
    cases hs
    show r ∈ (s.demux.line serde text).replies
    rw [Demux.line_eq]
    cases readLine serde text with
    | none => exact h
    | some x => exact List.mem_append_left _ h
  | analyze call write =>
    rcases OneProcess.step_analyze serde hs with ⟨-, rfl⟩ | ⟨cmd, -, rfl⟩
    · exact h
    · show r ∈ (s.demux.submit serde cmd write).replies
      rcases s.demux.submit_cases serde cmd write with ⟨-, hrep⟩ | ⟨-, err, hrep⟩
      · rw [hrep]
        exact h
      · rw [hrep]
        exact List.mem_append_left _ h

/-- **One event**, as the batch of `id` sees it. -/
theorem step_own {s t : OneProcess} (h : s.Ok) {id : String} {b : Pending}
    (hb : s.demux.pending.lookup id = some b) {event : ProcessEvent}
    (hs : (oneProcess serde).step s event = some t) :
    match event.own serde id with
    | none => t.demux.pending.lookup id = some b
    | some x =>
      match b.take x with
      | .inl b' => t.demux.pending.lookup id = some b'
      | .inr reply => (b.tx, reply) ∈ t.demux.replies := by
  cases event with
  | analyze call write =>
    show t.demux.pending.lookup id = some b
    rcases OneProcess.step_analyze serde hs with ⟨-, rfl⟩ | ⟨cmd, -, rfl⟩
    · exact hb
    · show (s.demux.submit serde cmd write).pending.lookup id = some b
      rcases s.demux.submit_cases serde cmd write with ⟨hp, -⟩ | ⟨hp, -⟩
      · -- the new id is not one of the pending ones
        have hne : id ≠ queryId s.demux.nextId := by
          rintro rfl
          rw [h.ids.fresh] at hb
          cases hb
        rw [hp, AList.lookup_insert_ne hne]
        exact hb
      · rw [hp]
        exact hb
  | line text =>
    cases hs
    rw [Demux.line_eq]
    cases hr : readLine serde text with
    | none =>
      simp only [ProcessEvent.own, hr, Option.bind_none]
      exact hb
    | some r =>
      obtain ⟨id', x⟩ := r
      by_cases hid : id' = id
      · subst hid
        simp only [ProcessEvent.own, hr, Option.bind_some, if_true, deliver, hb]
        cases b.take x with
        | inl b' => exact AList.lookup_insert _
        | inr reply => exact List.mem_append_right _ (List.mem_singleton.mpr rfl)
      · simp only [ProcessEvent.own, hr, Option.bind_some, if_neg hid]
        rw [deliver_lookup_ne x (Ne.symm hid)]
        exact hb

/-- **A pending query** comes to what the lines of its own id make of it. -/
theorem follow {s t : OneProcess} (h : s.Ok) {id : String} {b : Pending}
    (hb : s.demux.pending.lookup id = some b) {events : List ProcessEvent}
    (he : (oneProcess serde).exec s events = some t) :
    match b.run (ownLines serde id events) with
    | .inl b' => t.demux.pending.lookup id = some b'
    | .inr reply => (b.tx, reply) ∈ t.demux.replies := by
  induction events generalizing s b with
  | nil =>
    cases he
    exact hb
  | cons event events ih =>
    obtain ⟨s', hs, he⟩ := Sys.exec_cons he
    have hone := step_own serde h hb hs
    have h' := h.step serde hs
    cases hx : event.own serde id with
    | none =>
      rw [hx] at hone
      have hown : ownLines serde id (event :: events) = ownLines serde id events :=
        List.filterMap_cons_none hx
      rw [hown]
      exact ih h' hone he
    | some x =>
      rw [hx] at hone
      have hown : ownLines serde id (event :: events) = x :: ownLines serde id events :=
        List.filterMap_cons_some hx
      rw [hown, Batch.run]
      cases htake : b.take x with
      | inl b' =>
        simp only [htake] at hone ⊢
        have hnext := ih h' hone he
        rw [Batch.take_tx htake] at hnext
        exact hnext
      | inr reply =>
        simp only [htake] at hone ⊢
        exact replies_grow serde he hone

theorem filter_one {A B : Type*} [DecidableEq A] {l : List (A × B)} (h : (l.map Prod.fst).Nodup)
    {a : A} {b : B} (hm : (a, b) ∈ l) : (l.filter fun r => r.1 == a).map Prod.snd = [b] := by
  induction l with
  | nil => cases hm
  | cons r l ih =>
    rw [List.map_cons, List.nodup_cons] at h
    rcases List.mem_cons.mp hm with rfl | hm
    · have hnone : l.filter (fun r => r.1 == a) = [] := by
        rw [List.filter_eq_nil_iff]
        intro r hr heq
        exact h.1 (List.mem_map.mpr ⟨r, hr, eq_of_beq heq⟩)
      have hkeep : ((a, b).1 == a) = true := beq_self_eq_true a
      rw [List.filter_cons, if_pos hkeep, hnone]
      rfl
    · have hne : ¬ (r.1 == a) = true := by
        intro heq
        exact h.1 (List.mem_map.mpr ⟨(a, b), hm, (eq_of_beq heq).symm⟩)
      rw [List.filter_cons, if_neg hne]
      exact ih h.2 hm

theorem OneProcess.Ok.repliesTo {s : OneProcess} (h : s.Ok) {tx : ReplyTx} {reply : Reply}
    (hr : (tx, reply) ∈ s.demux.replies) : s.demux.repliesTo tx = [reply] := by
  have hnodup : s.demux.accounts.Nodup := h.accounted.nodup_iff.mpr List.nodup_range
  exact filter_one (List.nodup_append.mp hnodup).2.1 hr

theorem OneProcess.Ok.repliesTo_pending {s : OneProcess} (h : s.Ok) {id : String} {b : Pending}
    (hb : s.demux.pending.lookup id = some b) : s.demux.repliesTo b.tx = [] := by
  have hnodup : s.demux.accounts.Nodup := h.accounted.nodup_iff.mpr List.nodup_range
  have hdisj := (List.nodup_append.mp hnodup).2.2
  have hnone : s.demux.replies.filter (fun r => r.1 == b.tx) = [] := by
    rw [List.filter_eq_nil_iff]
    intro r hr heq
    exact hdisj _ (mem_owners hb) _ (List.mem_map.mpr ⟨r, hr, rfl⟩) (eq_of_beq heq).symm
  unfold Demux.repliesTo
  rw [hnone]
  rfl

/-- **Responses are demultiplexed exactly.**  For a query written to the process, at any point
of any run: as long as its own id has had fewer responses than it asked for, its caller has no
reply; the last of them releases exactly those responses, in order; an error of its own id
that comes before is the reply instead.  No other line counts, and no batch in the table is
complete. -/
theorem replies_exact {s₀ s t : OneProcess} {before after : List ProcessEvent}
    {call : AnalyzeCall} (hturns : call.turns ≠ [])
    (h₀ : (oneProcess serde).init s₀) (hs : (oneProcess serde).exec s₀ before = some s)
    (hser : ∀ cmd, call.cmd s.calls = some cmd →
      ∃ line, serde.toString { cmd.query with id := queryId s.demux.nextId } = .ok line)
    (ht : (oneProcess serde).exec s (.analyze call none :: after) = some t) :
    let own := ownLines serde (queryId s.demux.nextId) after
    (∀ turns : List TurnResponse, own = turns.map .ok → turns.length < call.turns.length →
      t.demux.repliesTo s.calls = []) ∧
    (∀ (turns : List TurnResponse) rest, own = turns.map .ok ++ rest →
      turns.length = call.turns.length → t.demux.repliesTo s.calls = [.ok turns]) ∧
    (∀ (turns : List TurnResponse) err rest, own = turns.map .ok ++ .error err :: rest →
      turns.length < call.turns.length → t.demux.repliesTo s.calls = [.error err]) ∧
    ∀ id b, t.demux.pending.lookup id = some b → b.got.length < b.expected := by
  have hok : s.Ok := (OneProcess.Ok.init serde h₀).exec serde hs
  have htok : t.Ok := hok.exec serde ht
  obtain ⟨s', hstep, he⟩ := Sys.exec_cons ht
  have hok' : s'.Ok := hok.step serde hstep
  have hlen : call.turns.length ≠ 0 := fun h => hturns (List.length_eq_zero_iff.mp h)
  obtain ⟨cmd, hcmd, hs'⟩ : ∃ cmd, call.cmd s.calls = some cmd ∧
      s' = ⟨s.calls + 1, s.demux.submit serde cmd none⟩ := by
    rcases OneProcess.step_analyze serde hstep with ⟨hno, -⟩ | hone
    · unfold AnalyzeCall.cmd at hno
      rw [if_neg hlen] at hno
      cases hno
    · exact hone
  obtain ⟨htx, hexp, hpos⟩ := AnalyzeCall.cmd_some hcmd
  have hlook : s'.demux.pending.lookup (queryId s.demux.nextId)
      = some ⟨cmd.expected, [], cmd.tx⟩ := by
    obtain ⟨line, hline⟩ := hser cmd hcmd
    rw [hs']
    unfold Demux.submit
    simp only [hline]
    exact AList.lookup_insert _
  have hfollow := follow serde hok' hlook he
  rw [← htx, ← hexp]
  refine ⟨?_, ?_, ?_, htok.filling⟩
  · intro turns hown hshort
    rw [hown, Batch.run_partial _ turns (by simpa using hshort)] at hfollow
    exact htok.repliesTo_pending hfollow
  · intro turns rest hown hall
    rw [hown, Batch.run_complete ⟨cmd.expected, [], cmd.tx⟩ turns rest hpos (by simpa using hall)]
      at hfollow
    exact htok.repliesTo hfollow
  · intro turns err rest hown hshort
    rw [hown, Batch.run_failed _ turns err rest (by simpa using hshort)] at hfollow
    exact htok.repliesTo hfollow

end

/-! One query for two turns, answered out of turn order between a warning and a line for an id
nobody has. -/

def oneMoveCall : AnalyzeCall :=
  { game := {
      boardSize := 9
      komi := 7
      rules := .chinese
      result := none
      initialStones := []
      moves := [(.black, "E5")] }
    cfg := {
      backend := .flex
      model := "g170e-b10c128.bpk"
      maxVisits := 200
      analysisPvLen := 8
      includeOwnership := false
      includeOwnershipStdev := false
      includePolicy := false
      humanModel := ""
      topK := 5
      defaultKomi := 15 / 2
      defaultBoardSize := 19
      screenVisits := 0 }
    turns := [0, 1]
    maxVisits := 200
    priority := 0
    humanProfile := none }

def oneMoveQuery : String :=
  "\x7b\"id\":\"q0\",\"rules\":\"chinese\",\"komi\":7.0,\"boardXSize\":9,\"boardYSize\":9," ++
  "\"initialStones\":[],\"moves\":[[\"B\",\"E5\"]],\"analyzeTurns\":[0,1],\"maxVisits\":200," ++
  "\"analysisPVLen\":8,\"includeOwnership\":false,\"includeOwnershipStdev\":false," ++
  "\"includePolicy\":false,\"priority\":0," ++
  "\"overrideSettings\":\x7b\"reportAnalysisWinratesAs\":\"SIDETOMOVE\"\x7d\x7d"

/-- what `serde_json` makes of the lines below -/
def oneMoveSerde : Serde where
  fromStr line :=
    if line = "\x7b\"id\":\"q0\",\"turnNumber\":1\x7d" then
      some (.obj [("id", .str "q0"), ("turnNumber", .num 1)])
    else if line = "\x7b\"id\":\"q7\",\"turnNumber\":3\x7d" then
      some (.obj [("id", .str "q7"), ("turnNumber", .num 3)])
    else if line = "\x7b\"id\":\"q0\",\"warning\":\"slow\"\x7d" then
      some (.obj [("id", .str "q0"), ("warning", .str "slow")])
    else if line = "\x7b\"id\":\"q0\",\"turnNumber\":0\x7d" then
      some (.obj [("id", .str "q0"), ("turnNumber", .num 0)])
    else none
  fromValue value :=
    match value.get "turnNumber" with
    | some (.num q) => some ⟨q.num.toNat, none, [], none, none, none, none⟩
    | _ => none
  toString _ := .ok oneMoveQuery

def oneMoveLines : List ProcessEvent :=
  [.line "\x7b\"id\":\"q0\",\"turnNumber\":1\x7d", .line "\x7b\"id\":\"q7\",\"turnNumber\":3\x7d",
    .line "\x7b\"id\":\"q0\",\"warning\":\"slow\"\x7d",
    .line "\x7b\"id\":\"q0\",\"turnNumber\":0\x7d"]

def oneMoveTurn (turn : Nat) : TurnResponse :=
  { turnNumber := turn
    rootInfo := none
    moveInfos := []
    ownership := none
    ownershipStdev := none
    policy := none
    humanPolicy := none }

theorem replies_exact_one_move :
    (((oneProcess oneMoveSerde).exec OneProcess.initial
        (.analyze oneMoveCall none :: oneMoveLines)).map fun t => t.demux.repliesTo 0)
      = some [.ok [oneMoveTurn 1, oneMoveTurn 0]] := by
  obtain ⟨t, ht⟩ : ∃ t, (oneProcess oneMoveSerde).exec OneProcess.initial
      (.analyze oneMoveCall none :: oneMoveLines) = some t := ⟨_, rfl⟩
  have hnone : (oneProcess oneMoveSerde).exec OneProcess.initial []
      = some OneProcess.initial := rfl
  have hreply := (replies_exact oneMoveSerde (by decide) rfl hnone (fun _ _ => ⟨_, rfl⟩) ht).2.1
    [oneMoveTurn 1, oneMoveTurn 0] [] rfl rfl
  rw [ht, Option.map_some]
  exact congrArg some hreply

end KatagoWs
