import Mathlib.Data.List.Nodup
import KatagoWs.Basic

/-!
# The pgmq queue of analysis jobs

A message stays in `active` until it is archived.  A read takes a visible message, counts the
delivery (`read_ct`) and hides it; the visibility comes back when the timeout lapses, and the
heartbeat (`extend_vt`) hides it again.

* `Queue.send`, `Queue.read`, `Queue.archive`, `Queue.setVisible`   the four operations;
* `Queue.Follows`   nothing changes an id or a body, and new messages take new ids;
* `Queue.Keeps`     no message leaves `active`;
* `Queue.Counts`    no delivery is forgotten, and none joins.
-/

namespace KatagoWs

/-- `db::NewJob`: what a client submits -/
structure NewJob where
  sgf : String
  humanProfile : Option String
deriving DecidableEq, Repr

/-- `queue::JobMessage`: the body of a message -/
structure JobMessage where
  jobId : Uuid
  sgf : String
  humanProfile : Option String
deriving DecidableEq, Repr

def NewJob.intoMessage (job : NewJob) (jobId : Uuid) : JobMessage :=
  { jobId, sgf := job.sgf, humanProfile := job.humanProfile }

structure Message where
  msgId : Nat
  readCt : Nat
  message : JobMessage
  visible : Bool
deriving DecidableEq, Repr

structure Queue where
  active : List Message
  archived : List Message
  nextMsgId : Nat
  nodup : (active.map Message.msgId).Nodup
  fresh : ∀ m ∈ active, m.msgId < nextMsgId

def Queue.empty : Queue := ⟨[], [], 1, List.nodup_nil, by simp⟩

def onMsg (msgId : Nat) (f : Message → Message) (ms : List Message) : List Message :=
  ms.map fun m => if m.msgId = msgId then f m else m

theorem onMsg_ids {msgId : Nat} {f : Message → Message} (hf : ∀ m, (f m).msgId = m.msgId)
    (ms : List Message) : (onMsg msgId f ms).map Message.msgId = ms.map Message.msgId := by
  rw [onMsg, List.map_map]
  refine List.map_congr_left fun m _ => ?_
  show (if m.msgId = msgId then f m else m).msgId = m.msgId
  split
  · exact hf m
  · rfl

def Queue.modify (q : Queue) (msgId : Nat) (f : Message → Message)
    (hf : ∀ m, (f m).msgId = m.msgId) : Queue where
  active := onMsg msgId f q.active
  archived := q.archived
  nextMsgId := q.nextMsgId
  nodup := by rw [onMsg_ids hf]; exact q.nodup
  fresh := by
    intro m hm
    have h : m.msgId ∈ (onMsg msgId f q.active).map Message.msgId := List.mem_map_of_mem hm
    rw [onMsg_ids hf] at h
    obtain ⟨w, hw, e⟩ := List.mem_map.mp h
    rw [← e]
    exact q.fresh w hw

def Queue.send (q : Queue) (body : JobMessage) : Queue where
  active := q.active ++ [⟨q.nextMsgId, 0, body, true⟩]
  archived := q.archived
  nextMsgId := q.nextMsgId + 1
  nodup := by
    rw [List.map_append, List.nodup_append]
    refine ⟨q.nodup, by simp, ?_⟩
    intro a ha b hb e
    obtain ⟨m, hm, rfl⟩ := List.mem_map.mp ha
    have h := q.fresh m hm
    simp only [List.map_cons, List.map_nil, List.mem_singleton] at hb
    omega
  fresh := by
    intro m hm
    rcases List.mem_append.mp hm with hm | hm
    · exact Nat.lt_succ_of_lt (q.fresh m hm)
    · rw [List.mem_singleton.mp hm]
      exact Nat.lt_succ_self _

/-- one delivery of a visible message: counted, hidden, and handed out as it now is -/
def Message.deliver (m : Message) : Message := { m with readCt := m.readCt + 1, visible := false }

def Queue.read (q : Queue) (msgId : Nat) : Option (Message × Queue) :=
  match q.active.find? fun m => m.msgId == msgId && m.visible with
  | some m => some (m.deliver, q.modify msgId Message.deliver fun _ => rfl)
  | none => none

def Queue.archive (q : Queue) (msgId : Nat) : Queue where
  active := q.active.filter fun m => m.msgId != msgId
  archived := q.archived ++ q.active.filter fun m => m.msgId == msgId
  nextMsgId := q.nextMsgId
  nodup := q.nodup.sublist (List.Sublist.map _ List.filter_sublist)
  fresh := fun m hm => q.fresh m (List.mem_filter.mp hm).1

/-- `set_vt` (hidden again) or a lapse of the timeout (visible again) -/
def Queue.setVisible (q : Queue) (msgId : Nat) (visible : Bool) : Queue :=
  q.modify msgId (fun m => { m with visible }) fun _ => rfl

/-! ## what may become of the messages -/

theorem Queue.msg_unique (q : Queue) {m w : Message} (hm : m ∈ q.active) (hw : w ∈ q.active)
    (h : m.msgId = w.msgId) : m = w := List.inj_on_of_nodup_map q.nodup hm hw h

structure Queue.Follows (q q' : Queue) : Prop where
  next : q.nextMsgId ≤ q'.nextMsgId
  old : ∀ w' ∈ q'.active, w'.msgId < q.nextMsgId →
    ∃ w ∈ q.active, w.msgId = w'.msgId ∧ w.message = w'.message

def Queue.Keeps (q q' : Queue) : Prop :=
  ∀ w ∈ q.active, ∃ w' ∈ q'.active, w'.msgId = w.msgId ∧ w'.message = w.message

/-- every message was there, and has been delivered at least as often -/
def Queue.Counts (q q' : Queue) : Prop :=
  ∀ w' ∈ q'.active, ∃ w ∈ q.active, w.msgId = w'.msgId ∧ w.message = w'.message ∧
    w.readCt ≤ w'.readCt

theorem Queue.Follows.refl (q : Queue) : q.Follows q :=
  ⟨le_refl _, fun w hw _ => ⟨w, hw, rfl, rfl⟩⟩

theorem Queue.Follows.trans {a b c : Queue} (h : a.Follows b) (k : b.Follows c) : a.Follows c := by
  refine ⟨le_trans h.next k.next, fun w hw hl => ?_⟩
  obtain ⟨v, hv, e1, e2⟩ := k.old w hw (lt_of_lt_of_le hl h.next)
  obtain ⟨u, hu, f1, f2⟩ := h.old v hv (by omega)
  exact ⟨u, hu, f1.trans e1, f2.trans e2⟩

theorem mem_onMsg {msgId : Nat} {f : Message → Message} {ms : List Message} {w : Message}
    (h : w ∈ onMsg msgId f ms) : ∃ m ∈ ms, w = if m.msgId = msgId then f m else m := by
  obtain ⟨m, hm, e⟩ := List.mem_map.mp h
  exact ⟨m, hm, e.symm⟩

section
variable {q : Queue} {msgId : Nat} {f : Message → Message} {hf : ∀ m, (f m).msgId = m.msgId}

theorem Queue.modify_follows (hb : ∀ m, (f m).message = m.message) :
    q.Follows (q.modify msgId f hf) := by
  refine ⟨le_refl _, fun w hw _ => ?_⟩
  obtain ⟨m, hm, rfl⟩ := mem_onMsg hw
  refine ⟨m, hm, ?_, ?_⟩
  · split
    · exact (hf m).symm
    · rfl
  · split
    · exact (hb m).symm
    · rfl

theorem Queue.modify_keeps (hb : ∀ m, (f m).message = m.message) :
    q.Keeps (q.modify msgId f hf) := by
  intro m hm
  refine ⟨_, List.mem_map_of_mem hm, ?_, ?_⟩
  · split
    · exact hf m
    · rfl
  · split
    · exact hb m
    · rfl

theorem Queue.modify_counts (hb : ∀ m, (f m).message = m.message)
    (hc : ∀ m, m.readCt ≤ (f m).readCt) : q.Counts (q.modify msgId f hf) := by
  intro w hw
  obtain ⟨m, hm, rfl⟩ := mem_onMsg hw
  by_cases h : m.msgId = msgId
  · rw [if_pos h]
    exact ⟨m, hm, (hf m).symm, (hb m).symm, hc m⟩
  · rw [if_neg h]
    exact ⟨m, hm, rfl, rfl, le_refl _⟩

end

theorem Queue.Counts.refl (q : Queue) : q.Counts q := fun w hw => ⟨w, hw, rfl, rfl, le_refl _⟩

theorem Queue.archive_counts (q : Queue) (msgId : Nat) : q.Counts (q.archive msgId) :=
  fun w hw => ⟨w, (List.mem_filter.mp hw).1, rfl, rfl, le_refl _⟩

theorem Queue.setVisible_counts (q : Queue) (msgId : Nat) (v : Bool) :
    q.Counts (q.setVisible msgId v) := Queue.modify_counts (fun _ => rfl) fun _ => le_refl _

theorem Queue.send_follows (q : Queue) (body : JobMessage) : q.Follows (q.send body) := by
  refine ⟨Nat.le_succ _, fun w hw hl => ?_⟩
  rcases List.mem_append.mp hw with hw | hw
  · exact ⟨w, hw, rfl, rfl⟩
  · rw [List.mem_singleton.mp hw] at hl
    exact absurd hl (lt_irrefl _)

theorem Queue.archive_follows (q : Queue) (msgId : Nat) : q.Follows (q.archive msgId) :=
  ⟨le_refl _, fun w hw _ => ⟨w, (List.mem_filter.mp hw).1, rfl, rfl⟩⟩

theorem Queue.setVisible_follows (q : Queue) (msgId : Nat) (v : Bool) :
    q.Follows (q.setVisible msgId v) := Queue.modify_follows fun _ => rfl

theorem Queue.setVisible_keeps (q : Queue) (msgId : Nat) (v : Bool) :
    q.Keeps (q.setVisible msgId v) := Queue.modify_keeps fun _ => rfl

theorem Queue.read_cases {q q' : Queue} {msgId : Nat} {m : Message}
    (h : q.read msgId = some (m, q')) : ∃ w ∈ q.active, w.msgId = msgId ∧ w.visible = true ∧
      m = w.deliver ∧ q' = q.modify msgId Message.deliver fun _ => rfl := by
  unfold Queue.read at h
  split at h
  case h_2 => exact absurd h (by simp)
  case h_1 w hw =>
    cases h
    have hp := List.find?_some hw
    simp only [Bool.and_eq_true, beq_iff_eq] at hp
    exact ⟨w, List.mem_of_find?_eq_some hw, hp.1, hp.2, rfl, rfl⟩

/-- **One delivery**: the message handed out is an active one, counted once more. -/
theorem Queue.read_spec {q q' : Queue} {msgId : Nat} {m : Message}
    (h : q.read msgId = some (m, q')) :
    (∃ w ∈ q.active, w.msgId = msgId ∧ w.visible = true ∧ m = w.deliver) ∧
      q.Follows q' ∧ q.Keeps q' ∧ q'.nextMsgId = q.nextMsgId := by
  obtain ⟨w, hw, hid, hv, hm, rfl⟩ := Queue.read_cases h
  exact ⟨⟨w, hw, hid, hv, hm⟩, Queue.modify_follows fun _ => rfl, Queue.modify_keeps fun _ => rfl,
    rfl⟩

theorem Queue.read_counts {q q' : Queue} {msgId : Nat} {m : Message}
    (h : q.read msgId = some (m, q')) :
    q.Counts q' ∧ ∀ w ∈ q'.active, w.msgId = m.msgId → m.readCt ≤ w.readCt := by
  obtain ⟨w, hw, hid, _, rfl, rfl⟩ := Queue.read_cases h
  refine ⟨Queue.modify_counts (fun _ => rfl) fun m => Nat.le_succ _, fun v hv e => ?_⟩
  obtain ⟨u, hu, rfl⟩ := mem_onMsg hv
  by_cases hu' : u.msgId = msgId
  · rw [if_pos hu', q.msg_unique hu hw (hu'.trans hid.symm)]
  · rw [if_neg hu'] at e
    exact absurd (e.trans hid) hu'

end KatagoWs
