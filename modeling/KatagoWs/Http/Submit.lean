import KatagoWs.Worker
import KatagoWs.Engine.Human

/-!
# Batch submission

`POST /analyse/batch`: each game is checked like a single submission, the accepted ones get rows
and messages in one transaction, and the ids that come back are spread over the inputs again.
The bearer token of the headers is `presented`, and a panic of the checks is `none`.

* `Transaction.submitMany`   its ids, and the error that rolls it back;
* `Ticket`           one input with what became of it: `exists_tickets` pairs every accepted
                     game with its own id, in order;
* `submitBatch_aligned`   a batch fails with nothing created, or every input has its result at
                     its own index.
-/

namespace KatagoWs
open Lib

/-- One game in a batch: a bare SGF, or the SGF with per-game options. -/
inductive BatchGame where
  | sgf (sgf : String)
  | withOptions (sgf : String) (humanProfile : Option String)

/-- The SGF and the (unvalidated) human profile. -/
def BatchGame.intoParts : BatchGame → String × Option String
  | .sgf game => (game, none)
  | .withOptions game humanProfile => (game, humanProfile)

structure BatchItem where
  jobId : Option Uuid
  error : Option String
deriving DecidableEq, Repr

def MAX_BATCH : Nat := 100

/-- Whether the presented bearer token is `expected`; an empty one never matches. -/
def bearerMatches (presented : Option String) (expected : String) : Bool :=
  !expected.isEmpty && presented == some expected

/-! ## the transaction -/

/-- the database in one transaction: the id the `n`-th insert mints, the error of a statement or
of the commit, if any, and the error of an id that exists -/
structure Transaction where
  mint : Nat → Uuid
  fault : Option AppError
  conflict : AppError

section
variable {τ : Type}

/-- the rows and messages of `jobs`, and their ids after `ids` -/
def Transaction.insertAll (db : Transaction) :
    List NewJob → List Uuid → Store τ → Option (List Uuid × Store τ)
  | [], ids, s => some (ids, s)
  | job :: jobs, ids, s =>
    match submitOne s (db.mint ids.length, job) with
    | some s => db.insertAll jobs (ids ++ [db.mint ids.length]) s
    | none => none

/-- Submit several jobs at once: every one gets a row and a message, or none do. -/
def Transaction.submitMany (db : Transaction) (jobs : List NewJob) (s : Store τ) :
    AppResult (List Uuid) × Store τ :=
  if jobs.isEmpty then (.ok [], s)
  else match db.fault, db.insertAll jobs [] s with
    | some err, _ => (.error err, s)
    | none, none => (.error db.conflict, s)
    | none, some (ids, t) => (.ok ids, t)

theorem submitOne_creates {s t : Store τ} {p : Uuid × NewJob} (h : submitOne s p = some t) :
    ∃ row msg, t.jobs.rows = s.jobs.rows ++ [row] ∧ row.id = p.1 ∧ row.status = .queued ∧
      t.queue.active = s.queue.active ++ [msg] ∧ msg.message = p.2.intoMessage p.1 := by
  obtain ⟨jobs, hins, rfl⟩ := Option.map_eq_some_iff.mp h
  obtain ⟨_, hrows, _⟩ := Jobs.insert_spec hins
  exact ⟨_, _, hrows, rfl, rfl, rfl, rfl⟩

theorem submitMany_creates {s t : Store τ} {jobs : List (Uuid × NewJob)}
    (h : jobs.foldlM submitOne s = some t) :
    ∃ rows sent, t.jobs.rows = s.jobs.rows ++ rows ∧ rows.map Job.id = jobs.map Prod.fst ∧
      (∀ row ∈ rows, row.status = .queued) ∧ t.queue.active = s.queue.active ++ sent ∧
      sent.map Message.message = jobs.map fun p => p.2.intoMessage p.1 := by
  induction jobs generalizing s with
  | nil =>
    cases h
    exact ⟨[], [], (List.append_nil _).symm, rfl, List.forall_mem_nil _,
      (List.append_nil _).symm, rfl⟩
  | cons p jobs ih =>
    rw [List.foldlM_cons] at h
    obtain ⟨u, h1, h2⟩ := Option.bind_eq_some_iff.mp h
    obtain ⟨row, msg, hr, hid, hq, ha, hm⟩ := submitOne_creates h1
    obtain ⟨rows, sent, hrs, hids, hqs, has, hms⟩ := ih h2
    refine ⟨row :: rows, msg :: sent, ?_, ?_, ?_, ?_, ?_⟩
    · rw [hrs, hr, List.append_assoc]
      rfl
    · rw [List.map_cons, List.map_cons, hid, hids]
    · exact List.forall_mem_cons.mpr ⟨hq, hqs⟩
    · rw [has, ha, List.append_assoc]
      rfl
    · rw [List.map_cons, List.map_cons, hm, hms]

theorem Transaction.insertAll_ok {db : Transaction} {jobs : List NewJob} {ids ids' : List Uuid}
    {s t : Store τ} (h : db.insertAll jobs ids s = some (ids', t)) :
    ∃ minted, ids' = ids ++ minted ∧ minted.length = jobs.length ∧
      (minted.zip jobs).foldlM submitOne s = some t := by
  induction jobs generalizing ids s with
  | nil =>
    obtain ⟨rfl, rfl⟩ := Prod.mk.inj (Option.some.inj h)
    exact ⟨[], (List.append_nil _).symm, rfl, rfl⟩
  | cons job jobs ih =>
    rw [Transaction.insertAll] at h
    cases hs : submitOne s (db.mint ids.length, job) with
    | none =>
      rw [hs] at h
      cases h
    | some u =>
      rw [hs] at h
      obtain ⟨minted, he, hl, hf⟩ := ih h
      refine ⟨db.mint ids.length :: minted, ?_, ?_, ?_⟩
      · rw [he, List.append_assoc]
        rfl
      · rw [List.length_cons, List.length_cons, hl]
      · rw [List.zip_cons_cons, List.foldlM_cons, hs]
        exact hf

/-- the transaction is the store's `submitMany` of the jobs with their ids, or nothing -/
theorem Transaction.submitMany_cases (db : Transaction) (jobs : List NewJob) (s : Store τ) :
    (∃ err, db.submitMany jobs s = (.error err, s)) ∨
      ∃ ids t, db.submitMany jobs s = (.ok ids, t) ∧ ids.length = jobs.length ∧
        (ids.zip jobs).foldlM submitOne s = some t := by
  rw [Transaction.submitMany]
  split_ifs with he
  · obtain rfl := List.isEmpty_iff.mp he
    exact Or.inr ⟨[], s, rfl, rfl, rfl⟩
  · cases db.fault with
    | some err => exact Or.inl ⟨err, rfl⟩
    | none =>
      cases hi : db.insertAll jobs [] s with
      | none => exact Or.inl ⟨db.conflict, rfl⟩
      | some p =>
        obtain ⟨minted, hm, hl, hf⟩ := Transaction.insertAll_ok hi
        rw [List.nil_append] at hm
        exact Or.inr ⟨p.1, p.2, rfl, hm ▸ hl, hm ▸ hf⟩

/-! ## the handler -/

variable (goParse : String → Except String (List SgfNode))

def BatchGame.check (game : BatchGame) : Option (AppResult NewJob) :=
  let parts := game.intoParts
  match validate goParse parts.1 with
  | .error err => some (.error err)
  | .ok _ => (Human.parse parts.2).map fun parsed =>
      parsed.map fun humanProfile => { sgf := parts.1, humanProfile }

/-- the loop over the games: why each was refused, and the jobs of the others -/
def checkGames : List BatchGame → List (Option String) → List NewJob →
    Option (List (Option String) × List NewJob)
  | [], refused, accepted => some (refused, accepted)
  | game :: games, refused, accepted =>
    match game.check goParse with
    | some (.ok job) => checkGames games (refused ++ [none]) (accepted ++ [job])
    | some (.error err) => checkGames games (refused ++ [some err.toString]) accepted
    | none => none

/-- the results: the next id for each game that was not refused -/
def batchItems : List (Option String) → List Uuid → List BatchItem
  | [], _ => []
  | some error :: refused, ids => ⟨none, some error⟩ :: batchItems refused ids
  | none :: refused, ids => ⟨ids.head?, none⟩ :: batchItems refused ids.tail

def submitBatch (clientToken presented : Option String) (db : Transaction) (games : List BatchGame)
    (s : Store τ) : Option (AppResult (List BatchItem) × Store τ) :=
  if clientToken.any fun token => !bearerMatches presented token then
    some (.error .unauthorized, s)
  else if games.length > MAX_BATCH then
    some (.error (.badRequest
      s!"at most {MAX_BATCH} SGFs per batch, got {games.length}"), s)
  else
    match checkGames goParse games [] [] with
    | none => none
    | some (refused, accepted) =>
      match db.submitMany accepted s with
      | (.error err, t) => some (.error err, t)
      | (.ok ids, t) => some (.ok (batchItems refused ids), t)

/-! ## tickets -/

/-- an input's outcome: the error it was refused with, or its id and its job -/
abbrev Ticket := AppResult (Uuid × NewJob)

def Ticket.item : Ticket → BatchItem
  | .ok (id, _) => ⟨some id, none⟩
  | .error err => ⟨none, some err.toString⟩

def Ticket.verdict (ticket : Ticket) : AppResult NewJob := ticket.map Prod.snd

def created (tickets : List Ticket) : List (Uuid × NewJob) := tickets.filterMap Except.toOption

def refusal : AppResult NewJob → Option String
  | .ok _ => none
  | .error err => some err.toString

theorem checkGames_eq {games : List BatchGame} {verdicts : List (AppResult NewJob)}
    (h : games.map (BatchGame.check goParse) = verdicts.map some) (refused : List (Option String))
    (accepted : List NewJob) :
    checkGames goParse games refused accepted =
      some (refused ++ verdicts.map refusal, accepted ++ verdicts.filterMap Except.toOption) := by
  induction games generalizing verdicts refused accepted with
  | nil =>
    obtain rfl : verdicts = [] := List.map_eq_nil_iff.mp h.symm
    rw [checkGames, List.map_nil, List.filterMap_nil, List.append_nil, List.append_nil]
  | cons game games ih =>
    cases verdicts with
    | nil => cases h
    | cons verdict verdicts =>
      obtain ⟨hg, hrest⟩ := List.cons.inj h
      cases verdict with
      | ok job =>
        rw [checkGames, hg]
        dsimp only
        rw [ih hrest, List.append_assoc, List.append_assoc]
        rfl
      | error err =>
        rw [checkGames, hg]
        dsimp only
        rw [ih hrest, List.append_assoc]
        rfl

/-- **Refilling**: with one id for each accepted input, every accepted input has its own. -/
theorem exists_tickets (verdicts : List (AppResult NewJob)) (ids : List Uuid)
    (h : ids.length = (verdicts.filterMap Except.toOption).length) :
    ∃ tickets : List Ticket, tickets.map Ticket.verdict = verdicts ∧
      batchItems (verdicts.map refusal) ids = tickets.map Ticket.item ∧
      ids.zip (verdicts.filterMap Except.toOption) = created tickets := by
  induction verdicts generalizing ids with
  | nil =>
    obtain rfl : ids = [] := List.length_eq_zero_iff.mp h
    exact ⟨[], rfl, rfl, rfl⟩
  | cons verdict verdicts ih =>
    cases verdict with
    | ok job =>
      cases ids with
      | nil => cases h
      | cons id ids =>
        obtain ⟨tickets, hv, hi, hc⟩ := ih ids (Nat.succ.inj h)
        refine ⟨.ok (id, job) :: tickets, ?_, ?_, ?_⟩
        · rw [List.map_cons, hv]
          rfl
        · rw [List.map_cons, List.map_cons, ← hi]
          rfl
        · show (id, job) :: ids.zip (verdicts.filterMap Except.toOption) = _
          rw [hc]
          rfl
    | error err =>
      obtain ⟨tickets, hv, hi, hc⟩ := ih ids h
      refine ⟨.error err :: tickets, ?_, ?_, ?_⟩
      · rw [List.map_cons, hv]
        rfl
      · rw [List.map_cons, List.map_cons, ← hi]
        rfl
      · exact hc

/-! ## what a batch does -/

/-- the game's SGF or its profile does not pass its check -/
def BatchGame.Invalid (game : BatchGame) : Prop :=
  (validate goParse game.intoParts.1).isOk = false ∨
    ∃ err, Human.parse game.intoParts.2 = some (.error err)

/-- every input of `games` has its result in `items`; `rows` are the jobs created, and `sent`
their messages -/
structure Aligned (games : List BatchGame) (items : List BatchItem) (s t : Store τ)
    (rows : List Job) (sent : List Message) : Prop where
  length : items.length = games.length
  exactlyOne : ∀ item ∈ items, item.jobId.isSome = !item.error.isSome
  refused : ∀ (i : Nat) (game : BatchGame) (item : BatchItem),
    games[i]? = some game → items[i]? = some item →
      (item.error.isSome ↔ game.Invalid goParse)
  accepted : ∀ (i : Nat) (game : BatchGame) (item : BatchItem) (id : Uuid),
    games[i]? = some game → items[i]? = some item → item.jobId = some id →
      id ∉ s.jobs.ids ∧ (∃ row ∈ rows, row.id = id) ∧
        ∃ profile, Human.parse game.intoParts.2 = some (.ok profile) ∧
          ∃ msg ∈ sent, msg.message =
            { jobId := id, sgf := game.intoParts.1, humanProfile := profile }
  distinct : ∀ (i j : Nat) (item item' : BatchItem) (id : Uuid),
    items[i]? = some item → items[j]? = some item' →
      item.jobId = some id → item'.jobId = some id → i = j
  created : t.jobs.rows = s.jobs.rows ++ rows
  queued : ∀ row ∈ rows, row.status = .queued
  published : t.queue.active = s.queue.active ++ sent
  rowIds : rows.map Job.id = items.filterMap BatchItem.jobId
  messageIds : (sent.map fun msg => msg.message.jobId) = items.filterMap BatchItem.jobId

variable {goParse}

theorem BatchGame.check_ok {game : BatchGame} {job : NewJob}
    (h : game.check goParse = some (.ok job)) :
    ¬ game.Invalid goParse ∧ job.sgf = game.intoParts.1 ∧
      Human.parse game.intoParts.2 = some (.ok job.humanProfile) := by
  rw [BatchGame.check] at h
  cases hv : validate goParse game.intoParts.1 with
  | error err =>
    rw [hv] at h
    cases h
  | ok u =>
    rw [hv] at h
    obtain ⟨parsed, hp, hj⟩ := Option.map_eq_some_iff.mp h
    cases parsed with
    | error err => cases hj
    | ok profile =>
      obtain rfl := Except.ok.inj hj
      refine ⟨?_, rfl, hp⟩
      rintro (hbad | ⟨err, he⟩)
      · rw [hv] at hbad
        cases hbad
      · rw [hp] at he
        cases he

theorem BatchGame.check_error {game : BatchGame} {err : AppError}
    (h : game.check goParse = some (.error err)) : game.Invalid goParse := by
  rw [BatchGame.check] at h
  cases hv : validate goParse game.intoParts.1 with
  | error e => exact Or.inl (by rw [hv]; rfl)
  | ok u =>
    rw [hv] at h
    obtain ⟨parsed, hp, hj⟩ := Option.map_eq_some_iff.mp h
    cases parsed with
    | error e => exact Or.inr ⟨e, hp⟩
    | ok profile => cases hj

theorem BatchGame.check_isSome (goParse : String → Except String (List SgfNode))
    {game : BatchGame}
    (h : (Human.parse game.intoParts.2).isSome) : ∃ verdict, game.check goParse = some verdict := by
  obtain ⟨parsed, hp⟩ := Option.isSome_iff_exists.mp h
  rw [BatchGame.check]
  cases validate goParse game.intoParts.1 with
  | error err => exact ⟨_, rfl⟩
  | ok u => exact ⟨_, by rw [hp]; rfl⟩

theorem exists_verdicts (goParse : String → Except String (List SgfNode))
    {games : List BatchGame}
    (h : ∀ game ∈ games, (Human.parse game.intoParts.2).isSome) :
    ∃ verdicts : List (AppResult NewJob),
      games.map (BatchGame.check goParse) = verdicts.map some := by
  induction games with
  | nil => exact ⟨[], rfl⟩
  | cons game games ih =>
    obtain ⟨hg, hrest⟩ := List.forall_mem_cons.mp h
    obtain ⟨verdict, hv⟩ := BatchGame.check_isSome goParse hg
    obtain ⟨verdicts, hvs⟩ := ih hrest
    exact ⟨verdict :: verdicts, by rw [List.map_cons, List.map_cons, hv, hvs]⟩

theorem item_jobId (ticket : Ticket) :
    ticket.item.jobId = (Except.toOption ticket).map Prod.fst := by
  cases ticket <;> rfl

theorem items_jobIds (tickets : List Ticket) :
    (tickets.map Ticket.item).filterMap BatchItem.jobId = (created tickets).map Prod.fst := by
  rw [List.filterMap_map, created, List.map_filterMap]
  exact List.filterMap_congr fun ticket _ => item_jobId ticket

theorem ticket_at {games : List BatchGame} {tickets : List Ticket}
    (hg : games.map (BatchGame.check goParse) = tickets.map fun ticket => some ticket.verdict)
    {i : Nat} {item : BatchItem} (hi : (tickets.map Ticket.item)[i]? = some item) :
    ∃ ticket, tickets[i]? = some ticket ∧ ticket.item = item ∧
      ∀ game, games[i]? = some game → game.check goParse = some ticket.verdict := by
  rw [List.getElem?_map, Option.map_eq_some_iff] at hi
  obtain ⟨ticket, ht, rfl⟩ := hi
  refine ⟨ticket, ht, rfl, fun game hgame => ?_⟩
  have h := congrArg (fun l => l[i]?) hg
  rw [List.getElem?_map, List.getElem?_map, hgame, ht] at h
  exact Option.some.inj h

theorem index_unique {A B : Type*} {f : A → Option B} {l : List A} (h : (l.filterMap f).Nodup)
    {i j : Nat} {a b : A} {x : B} (hi : l[i]? = some a) (hj : l[j]? = some b)
    (ha : f a = some x) (hb : f b = some x) : i = j := by
  have hp := List.pairwise_filterMap.mp h
  rw [List.pairwise_iff_getElem] at hp
  obtain ⟨hil, hi⟩ := List.getElem?_eq_some_iff.mp hi
  obtain ⟨hjl, hj⟩ := List.getElem?_eq_some_iff.mp hj
  rcases Nat.lt_trichotomy i j with hlt | heq | hlt
  · exact absurd rfl (hp i j hil hjl hlt x (hi ▸ ha) x (hj ▸ hb))
  · exact heq
  · exact absurd rfl (hp j i hjl hil hlt x (hj ▸ hb) x (hi ▸ ha))

theorem aligned_of {games : List BatchGame} {tickets : List Ticket} {s t : Store τ}
    (hg : games.map (BatchGame.check goParse) = tickets.map fun ticket => some ticket.verdict)
    (hf : (created tickets).foldlM submitOne s = some t) :
    ∃ rows sent, Aligned goParse games (tickets.map Ticket.item) s t rows sent := by
  obtain ⟨rows, sent, hrows, hids, hqueued, hactive, hsent⟩ := submitMany_creates hf
  have hnew : ∀ ticket ∈ tickets, ∀ id job, ticket = .ok (id, job) →
      (id, job) ∈ created tickets := fun ticket ht id job he =>
    List.mem_filterMap.mpr ⟨ticket, ht, by rw [he]; rfl⟩
  have hnodup := t.jobs.nodup
  rw [hrows, List.map_append, List.nodup_append] at hnodup
  refine ⟨rows, sent, ?_, ?_, ?_, ?_, ?_, hrows, hqueued, hactive, ?_, ?_⟩
  · rw [List.length_map]
    have hl := congrArg List.length hg
    rw [List.length_map, List.length_map] at hl
    exact hl.symm
  · intro item hitem
    obtain ⟨ticket, -, rfl⟩ := List.mem_map.mp hitem
    cases ticket <;> rfl
  · intro i game item hgame hitem
    obtain ⟨ticket, -, rfl, hcheck⟩ := ticket_at hg hitem
    cases ticket with
    | ok p =>
      exact ⟨fun he => absurd he Bool.false_ne_true,
        fun hbad => absurd hbad (BatchGame.check_ok (hcheck game hgame)).1⟩
    | error err =>
      exact ⟨fun _ => BatchGame.check_error (hcheck game hgame), fun _ => rfl⟩
  · intro i game item id hgame hitem hid
    obtain ⟨ticket, ht, rfl, hcheck⟩ := ticket_at hg hitem
    cases ticket with
    | error err => cases hid
    | ok p =>
      obtain ⟨id', job⟩ := p
      obtain rfl : id' = id := Option.some.inj hid
      obtain ⟨-, hsgf, hprofile⟩ := BatchGame.check_ok (hcheck game hgame)
      have hmem := hnew _ (List.mem_of_getElem? ht) id' job rfl
      have hrow : id' ∈ rows.map Job.id := hids ▸ List.mem_map_of_mem hmem
      have hmsg : job.intoMessage id' ∈ sent.map Message.message := by
        rw [hsent]
        exact List.mem_map_of_mem (f := fun p : Uuid × NewJob => p.2.intoMessage p.1) hmem
      refine ⟨fun hs => hnodup.2.2 id' hs id' hrow rfl, List.mem_map.mp hrow, _, hprofile, ?_⟩
      obtain ⟨msg, hms, he⟩ := List.mem_map.mp hmsg
      exact ⟨msg, hms, by rw [he, NewJob.intoMessage, hsgf]⟩
  · intro i j item item' id hi hj hid hid'
    refine index_unique ?_ hi hj hid hid'
    rw [items_jobIds, ← hids]
    exact hnodup.2.1
  · rw [items_jobIds, hids]
  · rw [items_jobIds]
    have hm := congrArg (List.map JobMessage.jobId) hsent
    rw [List.map_map, List.map_map] at hm
    exact hm

/-- **A batch** whose profiles `parse` returns on is answered; it fails with nothing created, or
every input has its result at its own index. -/
theorem submitBatch_aligned (goParse : String → Except String (List SgfNode))
    (clientToken presented : Option String) (db : Transaction) (games : List BatchGame)
    (s : Store τ) (h : ∀ game ∈ games, (Human.parse game.intoParts.2).isSome) :
    (∃ err, submitBatch goParse clientToken presented db games s = some (.error err, s)) ∨
      ∃ items t, submitBatch goParse clientToken presented db games s = some (.ok items, t) ∧
        ∃ rows sent, Aligned goParse games items s t rows sent := by
  rw [submitBatch]
  split_ifs with htoken hlen
  · exact Or.inl ⟨_, rfl⟩
  · exact Or.inl ⟨_, rfl⟩
  · obtain ⟨verdicts, hv⟩ := exists_verdicts goParse h
    rw [checkGames_eq goParse hv, List.nil_append, List.nil_append]
    dsimp only
    rcases db.submitMany_cases (verdicts.filterMap Except.toOption) s with
      ⟨err, he⟩ | ⟨ids, t, hok, hl, hf⟩
    · rw [he]
      exact Or.inl ⟨err, rfl⟩
    · obtain ⟨tickets, rfl, hitems, hzip⟩ := exists_tickets verdicts ids hl
      rw [hok]
      dsimp only
      rw [hitems]
      refine Or.inr ⟨_, t, rfl, aligned_of ?_ (hzip ▸ hf)⟩
      rw [hv, List.map_map]
      rfl

/-- two games without an SGF property, the second one refused for its text -/
def sampleGames : List BatchGame :=
  [.withOptions "(;GM[1])" (some " rank_5k "), .sgf "not an sgf", .sgf "(;GM[1])"]

def sampleParse (sgf : String) : Except String (List SgfNode) :=
  if sgf = "(;GM[1])" then .ok [.mk [] []] else .error "no game tree"

def sampleStore : Store Unit := ⟨Jobs.empty, Queue.empty, 0, [], ()⟩

theorem submitBatch_aligned_sample :
    (submitBatch sampleParse none none ⟨fun n => n + 7, none, .db "exists"⟩ sampleGames
      sampleStore).map (fun r => r.1.toOption.map fun items => items.map BatchItem.jobId) =
        some (some [some 7, none, some 8]) ∧
    ((∃ err, submitBatch sampleParse none none ⟨fun n => n + 7, none, .db "exists"⟩ sampleGames
        sampleStore = some (.error err, sampleStore)) ∨
      ∃ items t, submitBatch sampleParse none none ⟨fun n => n + 7, none, .db "exists"⟩ sampleGames
        sampleStore = some (.ok items, t) ∧
          ∃ rows sent, Aligned sampleParse sampleGames items sampleStore t rows sent) :=
  ⟨by decide, submitBatch_aligned sampleParse none none _ sampleGames sampleStore (by decide)⟩

/-! ## a batch that goes through -/

theorem Transaction.insertAll_isSome {db : Transaction} (hmint : Function.Injective db.mint)
    (jobs : List NewJob) (ids : List Uuid) (s : Store τ)
    (hfresh : ∀ n, ids.length ≤ n → db.mint n ∉ s.jobs.ids) :
    (db.insertAll jobs ids s).isSome := by
  induction jobs generalizing ids s with
  | nil => rfl
  | cons job jobs ih =>
    have hins : ∃ t, submitOne s (db.mint ids.length, job) = some t := by
      rw [submitOne, Jobs.insert, dif_neg (hfresh ids.length (le_refl _))]
      exact ⟨_, rfl⟩
    obtain ⟨t, ht⟩ := hins
    rw [Transaction.insertAll, ht]
    refine ih _ t fun n hn => ?_
    rw [List.length_append, List.length_singleton] at hn
    obtain ⟨row, -, hr, hid, -⟩ := submitOne_creates ht
    -- the only new id is the one just minted
    intro hmem
    rw [Jobs.ids, hr, List.map_append, List.mem_append] at hmem
    rcases hmem with hmem | hmem
    · exact hfresh n (by omega) hmem
    · have heq := List.mem_singleton.mp hmem
      rw [hid] at heq
      have := hmint heq
      omega

/-- An authorised batch of no more than `MAX_BATCH` games goes through, unless the transaction
fails or an id exists. -/
theorem submitBatch_succeeds {clientToken presented : Option String} {db : Transaction}
    {games : List BatchGame} {s : Store τ}
    (h : ∀ game ∈ games, (Human.parse game.intoParts.2).isSome)
    (htoken : ∀ token ∈ clientToken, bearerMatches presented token = true)
    (hlen : games.length ≤ MAX_BATCH) (hfault : db.fault = none)
    (hmint : Function.Injective db.mint) (hfresh : ∀ n, db.mint n ∉ s.jobs.ids) :
    ∃ items t, submitBatch goParse clientToken presented db games s = some (.ok items, t) := by
  have htoken' : ¬ (clientToken.any fun token => !bearerMatches presented token) = true := by
    intro hany
    obtain ⟨token, hmem, hbad⟩ := (Option.any_eq_true _ _).mp hany
    rw [htoken token hmem] at hbad
    exact Bool.false_ne_true hbad
  obtain ⟨verdicts, hv⟩ := exists_verdicts goParse h
  rw [submitBatch, if_neg htoken', if_neg (by omega), checkGames_eq goParse hv]
  dsimp only
  rw [List.nil_append, List.nil_append]
  have hi := Transaction.insertAll_isSome hmint (verdicts.filterMap Except.toOption) [] s
    fun n _ => hfresh n
  obtain ⟨p, hp⟩ := Option.isSome_iff_exists.mp hi
  have hsubmit : ∃ ids t, db.submitMany (verdicts.filterMap Except.toOption) s = (.ok ids, t) := by
    rw [Transaction.submitMany, hfault, hp]
    split_ifs
    · exact ⟨_, _, rfl⟩
    · exact ⟨_, _, rfl⟩
  obtain ⟨ids, t, hs⟩ := hsubmit
  rw [hs]
  exact ⟨_, _, rfl⟩

end
end KatagoWs
