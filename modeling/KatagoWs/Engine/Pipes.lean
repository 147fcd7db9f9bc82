import Mathlib.Data.List.Infix
import KatagoWs.Engine.Exact
import KatagoWs.Lib.Chan

/-!
# Between the engine and its owner

The engine writes its responses to a pipe; a task reads them line by line and passes them on
through a bounded channel.  Another task reads what it says on its stderr: it watches for the
announcement that the engine is ready, and keeps the last lines for the report of its exit.  The
owner learns of the exit when the channel is empty and its sender gone.

* `Wires`              the pipes of one process and their two tasks;
* `pipedSys`           the owner of `Exact.lean`, every line, announcement and exit drawn from them;
* `Honest`             the engine's side of the protocol, at the moment it writes;
* `Wires.step_moves`   what a step of the process does, `Wires.take_cases` one of the owner;
* `Piped.Inv`          what is read so far and what is under way is what was written, in order;
* `written_is_read`    so replies are complete, and no response is lost to an exit.
-/

namespace KatagoWs
open Lib

def LINE_QUEUE_CAPACITY : Nat := 1024

def READY_LINE : String := "Started, ready to begin handling requests"

def STDERR_TAIL_LINES : Nat := 30

/-! ## the pipes of a process -/

inductive Reader where
  | idle
  /-- it waits for room in the channel -/
  | holds (line : String)
  /-- its end of the channel is dropped, at the end of the output or because that is not text -/
  | ended (atEnd : Bool)
deriving DecidableEq

inductive ReadySignal where
  | unsent
  | sent
  | taken
deriving DecidableEq

/-- One process: its pipes, what of them is not yet read, and the tasks that read them.  The last
three are records: what was written to stdout, what the owner got of it, and what was read of
stderr. -/
structure Wires where
  stdout : List String
  stdoutOpen : Bool
  reader : Reader
  lines : Chan String LINE_QUEUE_CAPACITY
  stderr : List String
  stderrOpen : Bool
  signal : ReadySignal
  recent : Recent String STDERR_TAIL_LINES
  /-- the tail is delivered, and the announcement can no longer come -/
  tailSent : Bool
  written : List String
  received : List String
  diagnosed : List String

def Wires.start : Wires where
  stdout := []
  stdoutOpen := true
  reader := .idle
  lines := .empty
  stderr := []
  stderrOpen := true
  signal := .unsent
  recent := .empty (by decide)
  tailSent := false
  written := []
  received := []
  diagnosed := []

inductive WireAct where
  | write (line : String)
  | closeStdout
  | diagnose (line : String)
  | closeStderr
  /-- `next_line` of the stdout task, and its `send` -/
  | read
  | forward
  | endRead (atEnd : Bool)
  | readErr
  | endErr (atEnd : Bool)

def Announces (line : String) : Prop := READY_LINE.toList <:+: line.toList

instance : DecidablePred Announces :=
  fun line => inferInstanceAs (Decidable (READY_LINE.toList <:+: line.toList))

def Wires.step (w : Wires) : WireAct → Option Wires
  | .write line =>
    if w.stdoutOpen then
      some { w with stdout := w.stdout ++ [line], written := w.written ++ [line] }
    else none
  | .closeStdout => some { w with stdoutOpen := false }
  | .diagnose line =>
    if w.stderrOpen then some { w with stderr := w.stderr ++ [line] } else none
  | .closeStderr => some { w with stderrOpen := false }
  | .read =>
    match w.reader, w.stdout with
    | .idle, line :: rest => some { w with reader := .holds line, stdout := rest }
    | _, _ => none
  | .forward =>
    match w.reader with
    | .holds line => (w.lines.send line).map fun lines => { w with reader := .idle, lines }
    | _ => none
  | .endRead atEnd =>
    if w.reader = .idle ∧ (atEnd = true → w.stdout = [] ∧ w.stdoutOpen = false) then
      some { w with reader := .ended atEnd }
    else none
  | .readErr =>
    match w.stderr with
    | line :: rest =>
      if w.tailSent then none
      else some { w with
        stderr := rest
        signal := if Announces line ∧ w.signal = .unsent then .sent else w.signal
        recent := w.recent.push line
        diagnosed := w.diagnosed ++ [line] }
    | [] => none
  | .endErr atEnd =>
    if w.tailSent = false ∧ (atEnd = true → w.stderr = [] ∧ w.stderrOpen = false) then
      some { w with tailSent := true }
    else none

def Wires.underWay (w : Wires) : List String :=
  w.lines.items ++ ((match w.reader with | .holds line => [line] | _ => []) ++ w.stdout)

/-- What a step of the owner takes from its process: the next line, an announcement, the end, or
nothing.  The tail of a report is what was delivered in time. -/
def Wires.take (w : Wires) : OwnerAction → Option Wires
  | .line text =>
    match w.lines.recv with
    | some (line, lines) =>
      if line = text then some { w with lines, received := w.received ++ [line] } else none
    | none => none
  | .exit report =>
    if w.lines.items = [] ∧ (∃ atEnd, w.reader = .ended atEnd) ∧
        (report.stderr = [] ∨ w.tailSent = true ∧ report.stderr = w.recent.items) then some w
    else none
  | .ready true => if w.signal = .sent then some { w with signal := .taken } else none
  | .ready false => if w.tailSent ∧ w.signal = .unsent then some w else none
  | .wake true => some .start
  | _ => some w

/-! ## the owner at its end of the pipes -/

/-- the owner and its record, the current process, and the responses of all processes as they
were written -/
structure Piped where
  owner : Owner
  read : Dialogue
  wires : Wires
  responses : List (String × TurnResponse)

inductive PipedAct where
  | owner (a : OwnerAction)
  | wire (a : WireAct)

def Piped.written (s : Piped) : Dialogue := ⟨s.read.calls, s.responses⟩

section
variable (serde : Serde)

def responseOf (line : String) : Option (String × TurnResponse) :=
  match readLine serde line with
  | some (id, .ok turn) => some (id, turn)
  | _ => none

def WireAct.responses : WireAct → List (String × TurnResponse)
  | .write line => (responseOf serde line).toList
  | _ => []

def pipedStep (s : Piped) : PipedAct → Option Piped
  | .owner a => (s.wires.take a).bind fun wires => (s.owner.step serde a).map fun owner =>
    { s with owner, read := Dialogue.note serde s.owner a s.read, wires }
  | .wire a => (s.wires.step a).map fun wires =>
    { s with wires, responses := s.responses ++ a.responses serde }

def pipedSys (supervised : Bool) : Sys Piped PipedAct where
  init s := s = ⟨Owner.initial supervised, ⟨[], []⟩, .start, []⟩
  step := pipedStep serde

variable (answers : AnalysisQuery → TurnResponse → Prop)

/-- A response that is written names a query that was given to a process and answers it, and no
turn is answered more often than it was asked. -/
def Honest (s : Piped) : PipedAct → Prop
  | .wire (.write line) => Answering serde answers (s.owner, s.written) (.line line)
  | _ => True

end

/-! ## what a step does to the pipes -/

def WireAct.lines : WireAct → List String
  | .write line => [line]
  | _ => []

/-- A step of the process and its tasks: what it writes is under way, nothing else is, and an
announcement that was taken stays taken. -/
structure Wires.Moves (w w' : Wires) (lines : List String) : Prop where
  received : w'.received = w.received
  written : w'.written = w.written ++ lines
  underWay : w'.underWay = w.underWay ++ lines
  signal : w.signal = .taken → w'.signal = .taken

section
variable {w w' : Wires}

theorem Wires.read_cases (hs : w.step .read = some w') :
    ∃ line rest, w.reader = .idle ∧ w.stdout = line :: rest ∧
      w' = { w with reader := .holds line, stdout := rest } := by
  unfold Wires.step at hs
  dsimp only at hs
  split at hs
  · next line rest hreader hstdout =>
    cases hs
    exact ⟨line, rest, hreader, hstdout, rfl⟩
  · cases hs

theorem Wires.forward_cases (hs : w.step .forward = some w') :
    ∃ line lines, w.reader = .holds line ∧ lines.items = w.lines.items ++ [line] ∧
      w' = { w with reader := .idle, lines } := by
  unfold Wires.step at hs
  dsimp only at hs
  split at hs
  · next line hreader =>
    obtain ⟨lines, hsend, rfl⟩ := Option.map_eq_some_iff.mp hs
    exact ⟨line, lines, hreader, Chan.send_items hsend, rfl⟩
  · cases hs

theorem Wires.readErr_cases (hs : w.step .readErr = some w') :
    ∃ line rest, w' = { w with
      stderr := rest
      signal := if Announces line ∧ w.signal = .unsent then .sent else w.signal
      recent := w.recent.push line
      diagnosed := w.diagnosed ++ [line] } := by
  unfold Wires.step at hs
  dsimp only at hs
  split at hs
  · next line rest hstderr =>
    obtain ⟨-, he⟩ := Option.ite_none_left_eq_some.mp hs
    exact ⟨line, rest, (Option.some.inj he).symm⟩
  · cases hs

theorem Wires.step_moves {a : WireAct} (hs : w.step a = some w') : w.Moves w' a.lines := by
  have hnil : ∀ l : List String, l = l ++ [] := fun l => (List.append_nil l).symm
  cases a with
  | write line =>
    obtain ⟨-, he⟩ := Option.ite_none_right_eq_some.mp hs
    cases he
    refine ⟨rfl, rfl, ?_, id⟩
    show w.lines.items ++ (_ ++ (w.stdout ++ [line])) = w.underWay ++ [line]
    unfold Wires.underWay
    simp only [List.append_assoc]
  | read =>
    obtain ⟨line, rest, hreader, hstdout, rfl⟩ := Wires.read_cases hs
    refine ⟨rfl, hnil _, ?_, id⟩
    show w.lines.items ++ ([line] ++ rest) = w.underWay ++ []
    unfold Wires.underWay
    rw [hreader, hstdout, List.append_nil]
    rfl
  | forward =>
    obtain ⟨line, lines, hreader, hsend, rfl⟩ := Wires.forward_cases hs
    refine ⟨rfl, hnil _, ?_, id⟩
    show lines.items ++ ([] ++ w.stdout) = w.underWay ++ []
    unfold Wires.underWay
    rw [hreader, hsend, List.append_nil, List.append_assoc]
    rfl
  | endRead atEnd =>
    obtain ⟨⟨hidle, -⟩, he⟩ := Option.ite_none_right_eq_some.mp hs
    cases he
    refine ⟨rfl, hnil _, ?_, id⟩
    show w.lines.items ++ ([] ++ w.stdout) = w.underWay ++ []
    unfold Wires.underWay
    rw [hidle, List.append_nil]
  | readErr =>
    obtain ⟨line, rest, rfl⟩ := Wires.readErr_cases hs
    refine ⟨rfl, hnil _, hnil _, fun htaken => ?_⟩
    show (if _ ∧ w.signal = .unsent then _ else w.signal) = .taken
    rw [if_neg (fun hand => by rw [htaken] at hand; cases hand.2), htaken]
  | closeStdout =>
    cases hs
    exact ⟨rfl, hnil _, hnil _, id⟩
  | closeStderr =>
    cases hs
    exact ⟨rfl, hnil _, hnil _, id⟩
  | diagnose line =>
    obtain ⟨-, he⟩ := Option.ite_none_right_eq_some.mp hs
    cases he
    exact ⟨rfl, hnil _, hnil _, id⟩
  | endErr atEnd =>
    obtain ⟨-, he⟩ := Option.ite_none_right_eq_some.mp hs
    cases he
    exact ⟨rfl, hnil _, hnil _, id⟩

/-- **What the owner takes**: the line under way that is next, an announcement, a new process, or
nothing. -/
theorem Wires.take_cases {a : OwnerAction} (hs : w.take a = some w') :
    (∃ text lines, a = .line text ∧ w.lines.items = text :: lines.items ∧
      w' = { w with lines, received := w.received ++ [text] }) ∨
    (a = .ready true ∧ w.signal = .sent ∧ w' = { w with signal := .taken }) ∨
    (a = .wake true ∧ w' = .start) ∨
    (w' = w ∧ a ≠ .wake true ∧ ∀ text, a ≠ .line text) := by
  cases a with
  | line text =>
    unfold Wires.take at hs
    dsimp only at hs
    split at hs
    · next line lines hrecv =>
      obtain ⟨rfl, he⟩ := Option.ite_none_right_eq_some.mp hs
      exact Or.inl ⟨line, lines, rfl, Chan.recv_items hrecv, (Option.some.inj he).symm⟩
    · cases hs
  | ready announced =>
    cases announced with
    | true =>
      obtain ⟨hsent, he⟩ := Option.ite_none_right_eq_some.mp hs
      exact Or.inr (Or.inl ⟨rfl, hsent, (Option.some.inj he).symm⟩)
    | false =>
      obtain ⟨-, he⟩ := Option.ite_none_right_eq_some.mp hs
      cases he
      exact Or.inr (Or.inr (Or.inr
        ⟨rfl, OwnerAction.noConfusion, fun _ => OwnerAction.noConfusion⟩))
  | wake launched =>
    cases launched with
    | true => exact Or.inr (Or.inr (Or.inl ⟨rfl, (Option.some.inj hs).symm⟩))
    | false =>
      cases hs
      refine Or.inr (Or.inr (Or.inr ⟨rfl, fun he => ?_, fun _ => OwnerAction.noConfusion⟩))
      cases he
  | exit report =>
    obtain ⟨-, he⟩ := Option.ite_none_right_eq_some.mp hs
    cases he
    exact Or.inr (Or.inr (Or.inr ⟨rfl, OwnerAction.noConfusion, fun _ => OwnerAction.noConfusion⟩))
  | _ =>
    cases hs
    exact Or.inr (Or.inr (Or.inr ⟨rfl, OwnerAction.noConfusion, fun _ => OwnerAction.noConfusion⟩))

theorem Wires.take_signal {a : OwnerAction} (hs : w.take a = some w') (hne : a ≠ .wake true)
    (h : w.signal = .taken) : w'.signal = .taken := by
  rcases Wires.take_cases hs with ⟨_, _, -, -, rfl⟩ | ⟨-, -, rfl⟩ | ⟨hwake, -⟩ | ⟨rfl, -, -⟩
  · exact h
  · rfl
  · exact absurd hwake hne
  · exact h

/-! ## the pipes keep what is written -/

structure Wires.Flows (w : Wires) : Prop where
  flow : w.received ++ w.underWay = w.written
  atEnd : w.reader = .ended true → w.stdout = [] ∧ w.stdoutOpen = false
  tail : w.recent.items = w.diagnosed.rtake STDERR_TAIL_LINES
  announced : w.signal ≠ .unsent → ∃ line ∈ w.diagnosed, Announces line

theorem Wires.start_flows : Wires.start.Flows where
  flow := rfl
  atEnd h := by cases h
  tail := rfl
  announced h := absurd rfl h

theorem Wires.Flows.step (h : w.Flows) {a : WireAct} (hs : w.step a = some w') : w'.Flows := by
  have hflow : w'.received ++ w'.underWay = w'.written := by
    obtain ⟨hreceived, hwritten, hunder, -⟩ := Wires.step_moves hs
    rw [hreceived, hunder, hwritten, ← h.flow, List.append_assoc]
  cases a with
  | write line =>
    obtain ⟨hopen, he⟩ := Option.ite_none_right_eq_some.mp hs
    cases he
    refine ⟨hflow, fun hr => ?_, h.tail, h.announced⟩
    rw [(h.atEnd hr).2] at hopen
    cases hopen
  | read =>
    obtain ⟨line, rest, -, -, rfl⟩ := Wires.read_cases hs
    exact ⟨hflow, (fun hr => by cases hr), h.tail, h.announced⟩
  | forward =>
    obtain ⟨line, lines, -, -, rfl⟩ := Wires.forward_cases hs
    exact ⟨hflow, (fun hr => by cases hr), h.tail, h.announced⟩
  | endRead atEnd =>
    obtain ⟨⟨-, hend⟩, he⟩ := Option.ite_none_right_eq_some.mp hs
    cases he
    refine ⟨hflow, fun hr => ?_, h.tail, h.announced⟩
    cases hr
    exact hend rfl
  | readErr =>
    obtain ⟨line, rest, rfl⟩ := Wires.readErr_cases hs
    refine ⟨hflow, h.atEnd, Recent.push_last h.tail line, fun hsig => ?_⟩
    show ∃ l ∈ w.diagnosed ++ [line], Announces l
    by_cases hann : Announces line ∧ w.signal = .unsent
    · exact ⟨line, List.mem_append_right _ (List.mem_singleton.mpr rfl), hann.1⟩
    · dsimp only at hsig
      rw [if_neg hann] at hsig
      obtain ⟨l, hl, hal⟩ := h.announced hsig
      exact ⟨l, List.mem_append_left _ hl, hal⟩
  | closeStdout =>
    cases hs
    exact ⟨hflow, fun hr => ⟨(h.atEnd hr).1, rfl⟩, h.tail, h.announced⟩
  | closeStderr =>
    cases hs
    exact ⟨hflow, h.atEnd, h.tail, h.announced⟩
  | diagnose line =>
    obtain ⟨-, he⟩ := Option.ite_none_right_eq_some.mp hs
    cases he
    exact ⟨hflow, h.atEnd, h.tail, h.announced⟩
  | endErr atEnd =>
    obtain ⟨-, he⟩ := Option.ite_none_right_eq_some.mp hs
    cases he
    exact ⟨hflow, h.atEnd, h.tail, h.announced⟩

theorem Wires.Flows.take (h : w.Flows) {a : OwnerAction} (hs : w.take a = some w') :
    w'.Flows := by
  rcases Wires.take_cases hs with ⟨text, lines, -, hitems, rfl⟩ | ⟨-, hsent, rfl⟩ | ⟨-, rfl⟩ |
    ⟨rfl, -, -⟩
  · refine ⟨?_, h.atEnd, h.tail, h.announced⟩
    show (w.received ++ [text]) ++ (lines.items ++ _) = w.written
    rw [← h.flow, Wires.underWay, hitems]
    simp only [List.append_assoc, List.cons_append, List.nil_append]
  · refine ⟨h.flow, h.atEnd, h.tail, fun _ => h.announced ?_⟩
    rw [hsent]
    exact ReadySignal.noConfusion
  · exact start_flows
  · exact h

end

/-! ## what is read, and what is still under way -/

section
variable (serde : Serde)

def responsesOf (lines : List String) : List (String × TurnResponse) :=
  lines.filterMap (responseOf serde)

def OwnerAction.responses : OwnerAction → List (String × TurnResponse)
  | .line text => (responseOf serde text).toList
  | _ => []

variable {serde}

theorem responsesOf_append (l m : List String) :
    responsesOf serde (l ++ m) = responsesOf serde l ++ responsesOf serde m :=
  List.filterMap_append

theorem responsesOf_cons (line : String) (l : List String) :
    responsesOf serde (line :: l) = (responseOf serde line).toList ++ responsesOf serde l := by
  unfold responsesOf
  rw [List.filterMap_cons]
  cases responseOf serde line with
  | none => rfl
  | some r => rfl

theorem note_line (s : Owner) (text : String) (t : Dialogue) :
    Dialogue.note serde s (.line text) t
      = ⟨t.calls, t.responses ++ (responseOf serde text).toList⟩ := by
  unfold Dialogue.note responseOf
  cases hline : readLine serde text with
  | none => simp only [hline, Option.toList_none, List.append_nil]
  | some r =>
    obtain ⟨id, x⟩ := r
    cases x with
    | error err => simp only [hline, Option.toList_none, List.append_nil]
    | ok turn => simp only [hline, Option.toList_some]

theorem note_send (s : Owner) {call : AnalyzeCall} {cmd : AnalyzeCmd}
    (hcmd : call.cmd s.calls = some cmd) (t : Dialogue) :
    Dialogue.note serde s (.send call) t = ⟨t.calls ++ [call], t.responses⟩ := by
  unfold Dialogue.note
  simp only [hcmd]

theorem note_responses (s : Owner) (a : OwnerAction) (t : Dialogue) :
    (Dialogue.note serde s a t).responses = t.responses ++ a.responses serde := by
  cases a with
  | send call =>
    refine Eq.trans ?_ (List.append_nil _).symm
    cases hcmd : call.cmd s.calls with
    | none => unfold Dialogue.note; simp only [hcmd]
    | some cmd => rw [note_send s hcmd]
  | line text => rw [note_line]; rfl
  | _ => exact (List.append_nil _).symm

theorem WireAct.responses_eq (a : WireAct) : a.responses serde = responsesOf serde a.lines := by
  cases a with
  | write line =>
    show (responseOf serde line).toList = responsesOf serde [line]
    rw [responsesOf_cons]
    exact (List.append_nil _).symm
  | _ => rfl

theorem OwnerAction.responses_nil {a : OwnerAction} (h : ∀ text, a ≠ .line text) :
    a.responses serde = [] := by
  cases a with
  | line text => exact absurd rfl (h text)
  | _ => rfl

theorem Wires.take_ahead {w w' : Wires} {a : OwnerAction} (hs : w.take a = some w') :
    (a.responses serde ++ responsesOf serde w'.underWay).Sublist
      (responsesOf serde w.underWay) := by
  rcases Wires.take_cases hs with ⟨text, lines, rfl, hitems, rfl⟩ | ⟨rfl, -, rfl⟩ | ⟨rfl, rfl⟩ |
    ⟨rfl, -, hne⟩
  · have hunder : w.underWay
        = text :: ({ w with lines, received := w.received ++ [text] } : Wires).underWay := by
      unfold Wires.underWay
      rw [hitems]
      rfl
    rw [hunder, responsesOf_cons]
    exact List.Sublist.refl _
  · exact List.Sublist.refl _
  · exact List.nil_sublist _
  · rw [OwnerAction.responses_nil hne]
    exact List.Sublist.refl _

theorem Wires.take_seen {w w' : Wires} {a : OwnerAction} (hs : w.take a = some w')
    {l : List (String × TurnResponse)} (hl : responsesOf serde w.received <:+ l) :
    responsesOf serde w'.received <:+ l ++ a.responses serde := by
  rcases Wires.take_cases hs with ⟨text, lines, rfl, -, rfl⟩ | ⟨rfl, -, rfl⟩ | ⟨rfl, rfl⟩ |
    ⟨rfl, -, hne⟩
  · obtain ⟨m, rfl⟩ := hl
    refine ⟨m, ?_⟩
    show m ++ responsesOf serde (w.received ++ [text]) = _
    rw [responsesOf_append, responsesOf_cons, List.append_assoc]
    show m ++ (_ ++ (_ ++ [])) = _
    rw [List.append_nil]
    rfl
  · refine hl.trans ?_
    exact (List.append_nil l).symm ▸ List.suffix_rfl
  · exact List.nil_suffix
  · rw [OwnerAction.responses_nil hne, List.append_nil]
    exact hl

end

/-! ## a step of the owner -/

section
variable {serde : Serde} {answers : AnalysisQuery → TurnResponse → Prop} {s s' : Owner}
  {t : Dialogue} {responses : List (String × TurnResponse)}

theorem responseOf_eq {line id : String} {turn : TurnResponse}
    (h : readLine serde line = some (id, .ok turn)) : responseOf serde line = some (id, turn) := by
  unfold responseOf
  rw [h]

theorem readLine_of_response {line : String} {r : String × TurnResponse}
    (h : responseOf serde line = some r) : readLine serde line = some (r.1, .ok r.2) := by
  unfold responseOf at h
  split at h
  · next id turn hline =>
    cases h
    exact hline
  · cases h

theorem Attributed.follow (h : Attributed answers s ⟨t.calls, responses⟩) (hI : s.Once)
    {a : OwnerAction} (hs : s.step serde a = some s') :
    Attributed answers s' ⟨(Dialogue.note serde s a t).calls, responses⟩ := by
  rcases Owner.step_trace hs with ⟨call, cmd, rfl, hcmd, rfl⟩ |
    ⟨r, cmd, write, hwaits, hf, rfl, hn⟩ | ⟨text, rfl, rfl⟩ | ⟨hf, hn⟩
  · rw [note_send s hcmd]
    exact h.send hcmd
  · rw [hn]
    obtain ⟨call, hasked⟩ := h.waits cmd hwaits
    refine (h.fewer hf).submit hasked ?_ write
    rw [hf.nextId]
    exact h.fresh hI
  · rw [note_line]
    exact ⟨h.calls, h.waits, h.known, h.asked⟩
  · rw [hn]
    exact h.fewer hf

theorem Attributed.answering (h : Attributed answers s ⟨t.calls, responses⟩) {text : String}
    (hsub : (t.responses ++ (responseOf serde text).toList).Sublist responses) :
    Answering serde answers (s, t) (.line text) := by
  intro id turn hline
  rw [responseOf_eq hline] at hsub
  have hof : (t.of id ++ [turn]).Sublist (Dialogue.of ⟨t.calls, responses⟩ id) := by
    have happ := Dialogue.of_append t id id turn
    rw [if_pos rfl] at happ
    rw [← happ]
    exact (hsub.filter _).map _
  obtain ⟨e, he, rfl⟩ := h.known (id, turn)
    (hsub.subset (List.mem_append_right _ (List.mem_singleton.mpr rfl)))
  obtain ⟨call, cmd, hposed⟩ := h.asked e he
  refine ⟨e, he, rfl, call, cmd, hposed.by_call, ?_, ?_⟩
  · exact hposed.answered turn
      (hof.subset (List.mem_append_right _ (List.mem_singleton.mpr rfl)))
  · exact (hof.map _).subperm.trans hposed.bounded

/-- `Ready` is published by an announcement, and kept while that process is served -/
theorem Owner.step_ready {a : OwnerAction} (hs : s.step serde a = some s')
    (hready : s'.status = .ready) (hserve : s'.phase = .serve) :
    a = .ready true ∨ s.status = .ready ∧ s.phase = .serve ∧ a ≠ .wake true := by
  cases a with
  | ready announced =>
    change s.ready announced = some s' at hs
    unfold Owner.ready at hs
    obtain ⟨-, he⟩ := Option.ite_none_right_eq_some.mp hs
    cases he
    cases announced with
    | true => exact Or.inl rfl
    | false => exact Or.inr ⟨hready, hserve, OwnerAction.noConfusion⟩
  | wake launched =>
    change s.wake launched = some s' at hs
    unfold Owner.wake at hs
    obtain ⟨hwait, he⟩ := Option.ite_none_right_eq_some.mp hs
    cases launched with
    | true =>
      cases he
      cases hready
    | false =>
      cases he
      rw [hwait] at hserve
      cases hserve
  | send call =>
    change s.send call = some s' at hs
    unfold Owner.send at hs
    obtain ⟨-, he⟩ := Option.ite_none_right_eq_some.mp hs
    refine Or.inr ?_
    split at he <;> cases he <;> exact ⟨hready, hserve, OwnerAction.noConfusion⟩
  | askShutdown ack =>
    obtain ⟨-, he⟩ := Option.ite_none_right_eq_some.mp hs
    cases he
    exact Or.inr ⟨hready, hserve, OwnerAction.noConfusion⟩
  | dropHandles =>
    obtain ⟨-, he⟩ := Option.ite_none_right_eq_some.mp hs
    cases he
    exact Or.inr ⟨hready, hserve, OwnerAction.noConfusion⟩
  | drain write =>
    change s.drainOne serde write = some s' at hs
    unfold Owner.drainOne at hs
    split at hs
    · cases hs
      exact Or.inr ⟨hready, hserve, OwnerAction.noConfusion⟩
    · cases hs
  | recv write =>
    change s.recv serde write = some s' at hs
    unfold Owner.recv at hs
    split at hs
    · cases hs
    · next c rest hchan =>
      by_cases hl : s.loops = true
      · rw [if_pos hl] at hs
        cases hs
        cases c with
        | analyze cmd => exact Or.inr ⟨hready, hserve, OwnerAction.noConfusion⟩
        | shutdown ack => cases hserve
      · rw [if_neg hl] at hs
        obtain ⟨hwait, he⟩ := Option.ite_none_right_eq_some.mp hs
        cases he
        cases c with
        | analyze cmd => exact absurd (hwait.symm.trans hserve) OwnerPhase.noConfusion
        | shutdown ack => cases hserve
  | closed =>
    change s.closed = some s' at hs
    unfold Owner.closed at hs
    obtain ⟨-, hs⟩ := Option.ite_none_left_eq_some.mp hs
    by_cases hl : s.loops = true
    · rw [if_pos hl] at hs
      cases hs
      cases hserve
    · rw [if_neg hl] at hs
      obtain ⟨-, he⟩ := Option.ite_none_right_eq_some.mp hs
      cases he
      cases hserve
  | line text =>
    obtain ⟨-, he⟩ := Option.ite_none_right_eq_some.mp hs
    cases he
    exact Or.inr ⟨hready, hserve, OwnerAction.noConfusion⟩
  | exit report =>
    change s.exit report = some s' at hs
    unfold Owner.exit at hs
    obtain ⟨-, hs⟩ := Option.ite_none_right_eq_some.mp hs
    by_cases hstay : (!s.supervised || !s.started) = true
    · simp only [hstay, if_true, Option.some.injEq] at hs
      rw [← hs] at hserve
      cases hserve
    · simp only [if_neg hstay, Option.some.injEq] at hs
      rw [← hs] at hserve
      cases hserve

end

/-! ## the owner reads what was written -/

structure Piped.Inv (serde : Serde) (answers : AnalysisQuery → TurnResponse → Prop) (s : Piped) :
    Prop where
  owner : s.owner.Inv
  traced : Traced answers s.owner s.read
  attributed : Attributed answers s.owner s.written
  flows : s.wires.Flows
  /-- what a lost process left unread is skipped -/
  ahead : (s.read.responses ++ responsesOf serde s.wires.underWay).Sublist s.responses
  seen : responsesOf serde s.wires.received <:+ s.read.responses
  announced : s.owner.status = .ready → s.owner.phase = .serve → s.wires.signal = .taken

/-- What the owner has of its process, at any point of a run. -/
structure Piped.ReadsAll (serde : Serde) (answers : AnalysisQuery → TurnResponse → Prop)
    (s : Piped) : Prop where
  /-- the contract of an owner, of what was read -/
  replies : Exact answers s.owner s.read
  /-- the lines of the process, each once and in order -/
  inOrder : s.wires.received ++ s.wires.underWay = s.wires.written
  /-- an engine that counts as ready has said so -/
  ready : s.owner.status = .ready → s.owner.phase = .serve →
    ∃ line ∈ s.wires.diagnosed, Announces line

/-- What an exit report is drawn from, and which queries it fails. -/
structure Piped.Exits (serde : Serde) (s : Piped) (report : ExitReport) : Prop where
  /-- the last lines of stderr that were read, when they came in time -/
  tail : report.stderr = [] ∨ report.stderr = s.wires.diagnosed.rtake STDERR_TAIL_LINES
  /-- every line was read, and the process left a turn of each pending query unanswered -/
  unanswered : s.wires.reader = .ended true → s.wires.received = s.wires.written ∧
    ∀ id b, s.owner.demux.pending.lookup id = some b →
      (Dialogue.of ⟨[], responsesOf serde s.wires.written⟩ id).length < b.expected

section
variable {serde : Serde} {answers : AnalysisQuery → TurnResponse → Prop} {s s' : Piped}

theorem Piped.Inv.take (h : s.Inv serde answers) {a : OwnerAction} {w : Wires} {o : Owner}
    (htake : s.wires.take a = some w) (hstep : s.owner.step serde a = some o) :
    Piped.Inv serde answers ⟨o, Dialogue.note serde s.owner a s.read, w, s.responses⟩ := by
  have hread : (Dialogue.note serde s.owner a s.read).responses
      = s.read.responses ++ a.responses serde := note_responses s.owner a s.read
  have hsub : ((Dialogue.note serde s.owner a s.read).responses
      ++ responsesOf serde w.underWay).Sublist s.responses := by
    rw [hread, List.append_assoc]
    exact ((Wires.take_ahead htake).append_left _).trans h.ahead
  have hanswering : Answering serde answers (s.owner, s.read) a := by
    cases a with
    | line text =>
      refine h.attributed.answering ?_
      show (s.read.responses ++ OwnerAction.responses serde (.line text)).Sublist s.responses
      rw [← hread]
      exact (List.sublist_append_left _ _).trans hsub
    | _ => trivial
  exact
    { owner := h.owner.step hstep
      traced := h.traced.step h.owner.once hanswering hstep
      attributed := h.attributed.follow h.owner.once hstep
      flows := h.flows.take htake
      ahead := hsub
      seen := by
        rw [hread]
        exact Wires.take_seen htake h.seen
      announced := fun hready hserve => by
        rcases Owner.step_ready hstep hready hserve with rfl | ⟨hr, hp, hne⟩
        · obtain ⟨-, he⟩ := Option.ite_none_right_eq_some.mp htake
          cases he
          rfl
        · exact Wires.take_signal htake hne (h.announced hr hp) }

theorem Piped.Inv.wire (h : s.Inv serde answers) {a : WireAct} {w : Wires}
    (hok : Honest serde answers s (.wire a)) (hstep : s.wires.step a = some w) :
    Piped.Inv serde answers
      { s with wires := w, responses := s.responses ++ a.responses serde } := by
  obtain ⟨hreceived, -, hunder, hsignal⟩ := Wires.step_moves hstep
  refine
    { owner := h.owner
      traced := h.traced
      attributed := ?_
      flows := h.flows.step hstep
      ahead := ?_
      seen := ?_
      announced := fun hready hserve => hsignal (h.announced hready hserve) }
  · show Attributed answers s.owner ⟨s.read.calls, s.responses ++ a.responses serde⟩
    have hquiet : a.responses serde = [] →
        Attributed answers s.owner ⟨s.read.calls, s.responses ++ a.responses serde⟩ := by
      intro hnone
      rw [hnone, List.append_nil]
      exact h.attributed
    cases a with
    | write line =>
      cases hline : responseOf serde line with
      | none => exact hquiet (by show (responseOf serde line).toList = []; rw [hline]; rfl)
      | some r =>
        have hadd := h.attributed.response h.owner.once
          (hok r.1 r.2 (readLine_of_response hline))
        show Attributed answers s.owner
          ⟨s.read.calls, s.responses ++ (responseOf serde line).toList⟩
        rw [hline]
        exact hadd
    | _ => exact hquiet rfl
  · show (s.read.responses ++ responsesOf serde w.underWay).Sublist
      (s.responses ++ a.responses serde)
    rw [hunder, responsesOf_append, ← WireAct.responses_eq, ← List.append_assoc]
    exact h.ahead.append_right _
  · show responsesOf serde w.received <:+ s.read.responses
    rw [hreceived]
    exact h.seen

theorem piped_run {supervised : Bool}
    (h : (pipedSys serde supervised).ReachableIf (Honest serde answers) s) :
    s.Inv serde answers := by
  refine h.rule (I := Piped.Inv serde answers) ?_ ?_
  · rintro s rfl
    exact
      { owner := Owner.Inv.initial supervised
        traced := Traced.initial supervised
        attributed := (Traced.initial supervised).toAttributed
        flows := Wires.start_flows
        ahead := List.Sublist.refl _
        seen := List.suffix_rfl
        announced := fun hready => by cases hready }
  · intro s a s' hI hok hs
    cases a with
    | owner a =>
      obtain ⟨w, htake, hs⟩ := Option.bind_eq_some_iff.mp hs
      obtain ⟨o, hstep, rfl⟩ := Option.map_eq_some_iff.mp hs
      exact hI.take htake hstep
    | wire a =>
      obtain ⟨w, hstep, rfl⟩ := Option.map_eq_some_iff.mp hs
      exact hI.wire hok hstep

theorem Piped.Inv.readsAll (h : s.Inv serde answers) : s.ReadsAll serde answers where
  replies := h.traced.exact h.owner
  inOrder := h.flows.flow
  ready hready hserve := h.flows.announced (by
    rw [h.announced hready hserve]
    exact ReadySignal.noConfusion)

/-- an exit is learned of when the channel is empty -/
theorem Piped.Inv.exits (h : s.Inv serde answers) {report : ExitReport}
    (hs : pipedStep serde s (.owner (.exit report)) = some s') : s.Exits serde report := by
  obtain ⟨w, htake, -⟩ := Option.bind_eq_some_iff.mp hs
  obtain ⟨⟨hempty, -, htail⟩, -⟩ := Option.ite_none_right_eq_some.mp htake
  refine ⟨?_, fun hend => ?_⟩
  · rcases htail with hnone | ⟨-, hrecent⟩
    · exact Or.inl hnone
    · exact Or.inr (hrecent.trans h.flows.tail)
  · have hunder : s.wires.underWay = [] := by
      unfold Wires.underWay
      rw [hempty, hend, (h.flows.atEnd hend).1]
      rfl
    have hall : s.wires.received = s.wires.written := by
      rw [← h.flows.flow, hunder, List.append_nil]
    refine ⟨hall, fun id b hb => ?_⟩
    obtain ⟨-, -, -, -, hgot, -⟩ := h.traced.pending id b hb
    have hlt := h.traced.filling id b hb
    have hle : (Dialogue.of ⟨[], responsesOf serde s.wires.written⟩ id).length
        ≤ (s.read.of id).length := by
      rw [← hall]
      exact ((h.seen.sublist.filter _).map _).length_le
    rw [hgot] at hlt
    exact lt_of_le_of_lt hle hlt

/-- **What is written is read.**  Whatever the speed of the two tasks, the order of the steps and
the moment a process ends: the owner gets its lines each once and in order, so an engine that
writes an answer for each turn has its callers answered; it counts as ready only when the process
in service has announced it; and when it exits at the end of its output, every line was read
before a query is failed, and the process had left a turn of that query unanswered. -/
theorem written_is_read {supervised : Bool}
    (h : (pipedSys serde supervised).ReachableIf (Honest serde answers) s) :
    s.ReadsAll serde answers ∧
      ∀ report s', pipedStep serde s (.owner (.exit report)) = some s' → s.Exits serde report :=
  ⟨(piped_run h).readsAll, fun _ _ hs => (piped_run h).exits hs⟩

end

/-! The process announces that it is ready, answers one turn of two and closes its output; its
line is read before the exit is, and the query fails. -/

def cutShort : List PipedAct :=
  [.wire (.diagnose "Started, ready to begin handling requests"), .wire .readErr,
    .owner (.ready true), .owner (.send oneMoveCall), .owner (.recv none),
    .wire (.write "\x7b\"id\":\"q0\",\"turnNumber\":1\x7d"), .wire .closeStdout,
    .wire (.diagnose "terminate called"), .wire .closeStderr, .wire .read, .wire .forward,
    .wire (.endRead true), .owner (.line "\x7b\"id\":\"q0\",\"turnNumber\":1\x7d"),
    .wire .readErr, .wire (.endErr true)]

def cutShortReport : ExitReport :=
  ⟨"signal: 6", ["Started, ready to begin handling requests", "terminate called"]⟩

def pipedStart : Piped := ⟨Owner.initial true, ⟨[], []⟩, .start, []⟩

def cutShortEnd : Piped := ((pipedSys oneMoveSerde true).exec pipedStart cutShort).getD pipedStart

theorem cutShort_honest :
    (pipedSys oneMoveSerde true).Meets
      (Honest oneMoveSerde fun q turn => turn.turnNumber ∈ q.analyzeTurns) pipedStart cutShort := by
  have hby : AskedBy [oneMoveCall] 0 oneMoveCall ((oneMoveCall.cmd 0).get rfl) := ⟨rfl, rfl⟩
  refine Sys.Meets.cons trivial rfl (.cons trivial rfl (.cons trivial rfl (.cons trivial rfl
    (.cons trivial rfl (.cons ?_ rfl (.cons trivial rfl (.cons trivial rfl (.cons trivial rfl
    (.cons trivial rfl (.cons trivial rfl (.cons trivial rfl (.cons trivial rfl
    (.cons trivial rfl (.cons trivial rfl trivial))))))))))))))
  intro id turn hread
  cases hread
  refine ⟨_, List.mem_singleton.mpr rfl, rfl, _, _, hby, ?_, ?_⟩
  · decide
  · decide

theorem cutShortEnd_reachable :
    (pipedSys oneMoveSerde true).ReachableIf
      (Honest oneMoveSerde fun q turn => turn.turnNumber ∈ q.analyzeTurns) cutShortEnd :=
  ⟨pipedStart, cutShort, rfl, rfl, cutShort_honest⟩

theorem written_is_read_cut_short :
    cutShortEnd.ReadsAll oneMoveSerde (fun q turn => turn.turnNumber ∈ q.analyzeTurns) ∧
      cutShortEnd.Exits oneMoveSerde cutShortReport ∧
      (pipedStep oneMoveSerde cutShortEnd (.owner (.exit cutShortReport))).map
        (fun s => s.owner.demux.replies)
          = some [(0, .error "katago process exited (signal: 6)")] := by
  obtain ⟨hreads, hexits⟩ := written_is_read cutShortEnd_reachable
  exact ⟨hreads, hexits cutShortReport _ rfl, rfl⟩

end KatagoWs
