import KatagoWs.Lib.Fields
import KatagoWs.Cluster.Client

/-!
# Wire messages

The frames of the cluster socket and the bodies of the queue are JSON objects that serde reads by
the names of their fields.  An optional field may be absent or `null`, a name that is not read is
ignored, and a name that occurs twice is refused.  An array is read by position.

* `UuidText`           the text form of a job id;
* `JobMessage.decode_encode`, `JobFrame.decode_encode`   the round trips;
* `messages_read`      what was written is read back, in whatever order its fields arrive and
                       whatever else the object holds.
-/

namespace KatagoWs
open Lib

/-- the text of a `Uuid`, as the `uuid` crate writes and reads it -/
structure UuidText where
  format : Uuid → String
  parse : String → Option Uuid
  parse_format : ∀ id, parse (format id) = some id

/-! ## values and fields -/

def readUuid (U : UuidText) (v : Json) : Option Uuid := v.asStr.bind U.parse

def readU32 : Json → Option UInt32
  | .num q => if q.den = 1 ∧ 0 ≤ q.num ∧ q.num < 4294967296 then
      some (UInt32.ofNat q.num.toNat) else none
  | _ => none

/-- the fields of a struct: by name, or by position in the order of its declaration -/
def recordOf (names : List String) : Json → Option (List (String × Json))
  | .obj fs => some fs
  | .arr xs => if xs.length ≤ names.length then some (names.zip xs) else none
  | _ => none

def required {α : Type} (read : Json → Option α) (key : String) (fs : List (String × Json)) :
    Option α :=
  (field key fs).bind fun v => v.bind read

def optional {α : Type} (read : Json → Option α) (key : String) (fs : List (String × Json)) :
    Option (Option α) :=
  (field key fs).bind fun v =>
    match v with
    | none => some none
    | some .null => some none
    | some v => (read v).map some

/-- `skip_serializing_if = "Option::is_none"` -/
def optField (key : String) : Option String → List (String × Json)
  | none => []
  | some s => [(key, .str s)]

/-! ## the body of a queue message -/

section
variable (U : UuidText)

def JobMessage.fields (m : JobMessage) : List (String × Json) :=
  [("job_id", .str (U.format m.jobId)), ("sgf", .str m.sgf)]
    ++ optField "human_profile" m.humanProfile

def JobMessage.encode (m : JobMessage) : Json := .obj (m.fields U)

def JobMessage.names : List String := ["job_id", "sgf", "human_profile"]

def JobMessage.decode (v : Json) : Option JobMessage := do
  let fs ← recordOf JobMessage.names v
  let jobId ← required (readUuid U) "job_id" fs
  let sgf ← required Json.asStr "sgf" fs
  let humanProfile ← optional Json.asStr "human_profile" fs
  return { jobId, sgf, humanProfile }

/-! ## orchestrator to worker -/

/-- a `JobRequest` on the wire: with the trace header, which only the spans read -/
structure JobFrame where
  request : JobRequest
  trace : Option String
deriving DecidableEq, Repr

def JobFrame.fields (f : JobFrame) : List (String × Json) :=
  [("job_id", .str (U.format f.request.jobId)), ("sgf", .str f.request.sgf)]
    ++ optField "human_profile" f.request.humanProfile ++ optField "trace" f.trace

def JobFrame.encode (f : JobFrame) : Json := .obj (f.fields U)

def JobFrame.names : List String := ["job_id", "sgf", "human_profile", "trace"]

def JobFrame.decode (v : Json) : Option JobFrame := do
  let fs ← recordOf JobFrame.names v
  let jobId ← required (readUuid U) "job_id" fs
  let sgf ← required Json.asStr "sgf" fs
  let humanProfile ← optional Json.asStr "human_profile" fs
  let trace ← optional Json.asStr "trace" fs
  return { request := { jobId, sgf, humanProfile }, trace }

/-! ## worker to orchestrator -/

inductive ClientMsg where
  | hello (slots : UInt32) (name : String)
  | result (message : ResultMsg)

def encodeOutcome : JobOutcome → Json
  | .ok value => .obj [("ok", value)]
  | .error message => .obj [("err", .str message)]

def decodeOutcome : Json → Option JobOutcome
  | .obj [("ok", value)] => some (.ok value)
  | .obj [("err", .str message)] => some (.error message)
  | _ => none

def ClientMsg.fields : ClientMsg → List (String × Json)
  | .hello slots name =>
    [("kind", .str "hello"), ("slots", .num slots.toNat), ("name", .str name)]
  | .result message =>
    [("kind", .str "result"), ("job_id", .str (U.format message.jobId)),
      ("outcome", encodeOutcome message.outcome)]

def ClientMsg.encode (m : ClientMsg) : Json := .obj (m.fields U)

def ClientMsg.variant (kind : String) (v : Json) : Option ClientMsg :=
  if kind = "hello" then do
    let fs ← recordOf ["slots", "name"] v
    let slots ← required readU32 "slots" fs
    let name ← required Json.asStr "name" fs
    return .hello slots name
  else if kind = "result" then do
    let fs ← recordOf ["job_id", "outcome"] v
    let jobId ← required (readUuid U) "job_id" fs
    let outcome ← required decodeOutcome "outcome" fs
    return .result { jobId, outcome }
  else none

def ClientMsg.decode : Json → Option ClientMsg
  | .obj fs => (required Json.asStr "kind" fs).bind fun kind => ClientMsg.variant U kind (.obj fs)
  | .arr (kind :: xs) => kind.asStr.bind fun kind => ClientMsg.variant U kind (.arr xs)
  | _ => none

def helloNames : List String := ["kind", "slots", "name"]

def resultNames : List String := ["kind", "job_id", "outcome"]

def ClientMsg.names : ClientMsg → List String
  | .hello _ _ => helloNames
  | .result _ => resultNames

end

/-! ## what was written is read back -/

section
variable {U : UuidText}

/-- the known fields of the object `fs` are those of `gs` -/
def SameFields (known : List String) (fs gs : List (String × Json)) : Prop :=
  (fs.filter fun f => known.contains f.1).Perm (gs.filter fun f => known.contains f.1)

theorem SameFields.required {known : List String} {fs gs : List (String × Json)}
    (h : SameFields known fs gs) {α : Type} (read : Json → Option α) {key : String}
    (hk : key ∈ known) : required read key fs = required read key gs := by
  unfold KatagoWs.required
  rw [field_same h hk]

theorem SameFields.optional {known : List String} {fs gs : List (String × Json)}
    (h : SameFields known fs gs) {α : Type} (read : Json → Option α) {key : String}
    (hk : key ∈ known) : optional read key fs = optional read key gs := by
  unfold KatagoWs.optional
  rw [field_same h hk]

theorem readUuid_format (id : Uuid) : readUuid U (.str (U.format id)) = some id := U.parse_format id

theorem readU32_toNat (n : UInt32) : readU32 (.num n.toNat) = some n := by
  have hlt : n.toNat < 4294967296 := n.toNat_lt
  have hnum : ((n.toNat : ℚ).num) = (n.toNat : ℤ) := Rat.num_natCast n.toNat
  have hden : ((n.toNat : ℚ).den) = 1 := Rat.den_natCast n.toNat
  unfold readU32
  dsimp only
  rw [hnum, hden, if_pos ⟨rfl, by omega, by omega⟩, Int.toNat_natCast, UInt32.ofNat_toNat]

theorem decodeOutcome_encode (o : JobOutcome) : decodeOutcome (encodeOutcome o) = some o := by
  cases o with
  | ok value => rfl
  | error message => rfl

section
variable {α : Type} {read : Json → Option α} {key : String} {fs : List (String × Json)}

theorem required_of_mem {v : Json} (hnd : (fs.map Prod.fst).Nodup) (h : (key, v) ∈ fs) :
    required read key fs = read v := by
  unfold required
  rw [field_of_mem hnd h]
  rfl

theorem optional_text {s : Option String} (hnd : (fs.map Prod.fst).Nodup)
    (h : ∀ t, s = some t → (key, .str t) ∈ fs) (hn : s = none → key ∉ fs.map Prod.fst) :
    optional Json.asStr key fs = some s := by
  unfold optional
  cases s with
  | none =>
    rw [field_absent (hn rfl)]
    rfl
  | some t =>
    rw [field_of_mem hnd (h t rfl)]
    rfl

end

theorem mem_optField {key t : String} {s : Option String} (h : s = some t) :
    (key, .str t) ∈ optField key s := by
  rw [h]
  exact List.mem_singleton_self _

theorem JobMessage.fields_names (m : JobMessage) :
    ((m.fields U).map Prod.fst).Sublist JobMessage.names := by
  obtain ⟨jobId, sgf, humanProfile⟩ := m
  cases humanProfile with
  | none => exact (by decide : ["job_id", "sgf"].Sublist JobMessage.names)
  | some profile => exact List.Sublist.refl _

theorem JobMessage.decode_same {fs gs : List (String × Json)}
    (h : SameFields JobMessage.names fs gs) :
    JobMessage.decode U (.obj fs) = JobMessage.decode U (.obj gs) := by
  show ((required (readUuid U) "job_id" fs).bind fun jobId => _) = _
  rw [h.required (readUuid U) (by decide), h.required Json.asStr (by decide),
    h.optional Json.asStr (by decide)]
  rfl

theorem JobMessage.decode_encode (m : JobMessage) :
    JobMessage.decode U (m.encode U) = some m := by
  have hnd : ((m.fields U).map Prod.fst).Nodup := (m.fields_names).nodup (by decide)
  have hid : required (readUuid U) "job_id" (m.fields U) = some m.jobId :=
    (required_of_mem hnd List.mem_cons_self).trans (readUuid_format m.jobId)
  have hsgf : required Json.asStr "sgf" (m.fields U) = some m.sgf :=
    required_of_mem hnd (List.mem_cons_of_mem _ List.mem_cons_self)
  have hprofile : optional Json.asStr "human_profile" (m.fields U) = some m.humanProfile := by
    refine optional_text hnd (fun t ht => ?_) fun hn => ?_
    · exact List.mem_append_right _ (mem_optField ht)
    · obtain ⟨jobId, sgf, humanProfile⟩ := m
      cases hn
      exact (by decide : "human_profile" ∉ ["job_id", "sgf"])
  show ((required (readUuid U) "job_id" (m.fields U)).bind fun jobId => _) = _
  rw [hid, hsgf, hprofile]
  rfl

theorem JobFrame.fields_names (f : JobFrame) :
    ((f.fields U).map Prod.fst).Sublist JobFrame.names := by
  obtain ⟨⟨jobId, sgf, humanProfile⟩, trace⟩ := f
  cases humanProfile with
  | none =>
    cases trace with
    | none => exact (by decide : ["job_id", "sgf"].Sublist JobFrame.names)
    | some trace => exact (by decide : ["job_id", "sgf", "trace"].Sublist JobFrame.names)
  | some profile =>
    cases trace with
    | none => exact (by decide : ["job_id", "sgf", "human_profile"].Sublist JobFrame.names)
    | some trace => exact List.Sublist.refl _

theorem JobFrame.decode_same {fs gs : List (String × Json)}
    (h : SameFields JobFrame.names fs gs) :
    JobFrame.decode U (.obj fs) = JobFrame.decode U (.obj gs) := by
  show ((required (readUuid U) "job_id" fs).bind fun jobId => _) = _
  rw [h.required (readUuid U) (by decide), h.required Json.asStr (by decide),
    h.optional Json.asStr (by decide : "human_profile" ∈ JobFrame.names),
    h.optional Json.asStr (by decide : "trace" ∈ JobFrame.names)]
  rfl

theorem JobFrame.decode_encode (f : JobFrame) : JobFrame.decode U (f.encode U) = some f := by
  have hnd : ((f.fields U).map Prod.fst).Nodup := (f.fields_names).nodup (by decide)
  have hid : required (readUuid U) "job_id" (f.fields U) = some f.request.jobId :=
    (required_of_mem hnd List.mem_cons_self).trans (readUuid_format f.request.jobId)
  have hsgf : required Json.asStr "sgf" (f.fields U) = some f.request.sgf :=
    required_of_mem hnd (List.mem_cons_of_mem _ List.mem_cons_self)
  have hprofile : optional Json.asStr "human_profile" (f.fields U)
      = some f.request.humanProfile := by
    refine optional_text hnd (fun t ht => ?_) fun hn => ?_
    · exact List.mem_append_left _ (List.mem_append_right _ (mem_optField ht))
    · obtain ⟨⟨jobId, sgf, humanProfile⟩, trace⟩ := f
      cases hn
      cases trace with
      | none => exact (by decide : "human_profile" ∉ ["job_id", "sgf"])
      | some trace => exact (by decide : "human_profile" ∉ ["job_id", "sgf", "trace"])
  have htrace : optional Json.asStr "trace" (f.fields U) = some f.trace := by
    refine optional_text hnd (fun t ht => ?_) fun hn => ?_
    · exact List.mem_append_right _ (mem_optField ht)
    · obtain ⟨⟨jobId, sgf, humanProfile⟩, trace⟩ := f
      cases hn
      cases humanProfile with
      | none => exact (by decide : "trace" ∉ ["job_id", "sgf"])
      | some profile => exact (by decide : "trace" ∉ ["job_id", "sgf", "human_profile"])
  show ((required (readUuid U) "job_id" (f.fields U)).bind fun jobId => _) = _
  rw [hid, hsgf, hprofile, htrace]
  rfl

theorem ClientMsg.fields_names (m : ClientMsg) : ((m.fields U).map Prod.fst).Nodup := by
  cases m with
  | hello slots name => exact (by decide : helloNames.Nodup)
  | result message => exact (by decide : resultNames.Nodup)

theorem variant_hello (fs : List (String × Json)) : ClientMsg.variant U "hello" (.obj fs)
    = (required readU32 "slots" fs).bind fun slots =>
        (required Json.asStr "name" fs).bind fun name => some (.hello slots name) := rfl

theorem variant_result (fs : List (String × Json)) : ClientMsg.variant U "result" (.obj fs)
    = (required (readUuid U) "job_id" fs).bind fun jobId =>
        (required decodeOutcome "outcome" fs).bind fun outcome =>
          some (.result { jobId, outcome }) := rfl

/-- the tag of an object, and then the fields of its variant -/
theorem ClientMsg.decode_obj {fs : List (String × Json)} {kind : String}
    (h : required Json.asStr "kind" fs = some kind) :
    ClientMsg.decode U (.obj fs) = ClientMsg.variant U kind (.obj fs) := by
  show (required Json.asStr "kind" fs).bind _ = _
  rw [h]
  rfl

theorem ClientMsg.decode_hello (slots : UInt32) (name : String) {fs : List (String × Json)}
    (h : SameFields helloNames fs (ClientMsg.fields U (.hello slots name))) :
    ClientMsg.decode U (.obj fs) = some (.hello slots name) := by
  have hnd := ClientMsg.fields_names (U := U) (.hello slots name)
  have hkind : required Json.asStr "kind" fs = some "hello" :=
    (h.required Json.asStr (by decide)).trans (required_of_mem hnd List.mem_cons_self)
  have hslots : required readU32 "slots" fs = some slots :=
    (h.required readU32 (by decide)).trans
      ((required_of_mem hnd (List.mem_cons_of_mem _ List.mem_cons_self)).trans
        (readU32_toNat slots))
  have hname : required Json.asStr "name" fs = some name :=
    (h.required Json.asStr (by decide)).trans
      (required_of_mem hnd (List.mem_cons_of_mem _ (List.mem_cons_of_mem _ List.mem_cons_self)))
  rw [ClientMsg.decode_obj hkind, variant_hello, hslots, hname]
  rfl

theorem ClientMsg.decode_result (message : ResultMsg) {fs : List (String × Json)}
    (h : SameFields resultNames fs (ClientMsg.fields U (.result message))) :
    ClientMsg.decode U (.obj fs) = some (.result message) := by
  have hnd := ClientMsg.fields_names (U := U) (.result message)
  have hkind : required Json.asStr "kind" fs = some "result" :=
    (h.required Json.asStr (by decide)).trans (required_of_mem hnd List.mem_cons_self)
  have hid : required (readUuid U) "job_id" fs = some message.jobId :=
    (h.required (readUuid U) (by decide)).trans
      ((required_of_mem hnd (List.mem_cons_of_mem _ List.mem_cons_self)).trans
        (readUuid_format message.jobId))
  have hout : required decodeOutcome "outcome" fs = some message.outcome :=
    (h.required decodeOutcome (by decide)).trans
      ((required_of_mem hnd
        (List.mem_cons_of_mem _ (List.mem_cons_of_mem _ List.mem_cons_self))).trans
        (decodeOutcome_encode message.outcome))
  rw [ClientMsg.decode_obj hkind, variant_result, hid, hout]
  rfl

theorem ClientMsg.reads (m : ClientMsg) {fs : List (String × Json)}
    (h : SameFields m.names fs (m.fields U)) : ClientMsg.decode U (.obj fs) = some m := by
  cases m with
  | hello slots name => exact ClientMsg.decode_hello slots name h
  | result message => exact ClientMsg.decode_result message h

theorem ClientMsg.decode_encode (m : ClientMsg) : ClientMsg.decode U (m.encode U) = some m :=
  m.reads (List.Perm.refl _)

/-- **Every frame and every queue body is read back as it was written**, in whatever order its
fields arrive and whatever other fields the object holds. -/
theorem messages_read (U : UuidText) (fs : List (String × Json)) :
    (∀ m : JobMessage, SameFields JobMessage.names fs (m.fields U) →
      JobMessage.decode U (.obj fs) = some m) ∧
    (∀ f : JobFrame, SameFields JobFrame.names fs (f.fields U) →
      JobFrame.decode U (.obj fs) = some f) ∧
    (∀ m : ClientMsg, SameFields m.names fs (m.fields U) →
      ClientMsg.decode U (.obj fs) = some m) :=
  ⟨fun m h => (JobMessage.decode_same h).trans m.decode_encode,
    fun f h => (JobFrame.decode_same h).trans f.decode_encode,
    fun m h => m.reads h⟩

end

/-! ## an old and a new frame -/

def nilUuid : String := "00000000-0000-0000-0000-000000000000"

/-- texts of job ids, among them that of the nil id -/
def nilText : UuidText where
  format id := if id = 0 then nilUuid else String.ofList (List.replicate id 'f')
  parse s := if s = nilUuid then some 0 else some s.length
  parse_format id := by
    by_cases h : id = 0
    · subst h
      rfl
    · rw [if_neg h]
      have hne : String.ofList (List.replicate id 'f') ≠ nilUuid := by
        intro he
        have hmem : '0' ∈ (String.ofList (List.replicate id 'f')).toList := by
          rw [he]
          decide
        rw [String.toList_ofList] at hmem
        exact absurd (List.eq_of_mem_replicate hmem) (by decide)
      rw [if_neg hne, String.length_ofList, List.length_replicate]

/-- a request with its fields the other way round, and one nobody reads -/
def shuffledFrame : List (String × Json) :=
  [("trace", .str "t-1"), ("priority", .num 3), ("sgf", .str "(;GM[1])"), ("job_id", .str nilUuid)]

theorem messages_read_shuffled : JobFrame.decode nilText (.obj shuffledFrame)
    = some ⟨⟨0, "(;GM[1])", none⟩, some "t-1"⟩ := by
  have hsame : SameFields JobFrame.names shuffledFrame
      (JobFrame.fields nilText ⟨⟨0, "(;GM[1])", none⟩, some "t-1"⟩) :=
    List.reverse_perm
      [("job_id", Json.str nilUuid), ("sgf", .str "(;GM[1])"), ("trace", .str "t-1")]
  exact (messages_read nilText shuffledFrame).2.1 _ hsame

end KatagoWs
