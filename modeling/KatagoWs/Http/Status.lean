import KatagoWs.Service

/-!
# The status of a job

`GET /analyse/{id}` reads the job's row; with `?wait=` it reads it again every second until the job
is done or failed, or the time is up.  Any number of requests are under way while the store moves
on; times are in milliseconds.

* `StatusServer`    the requests, the store, and a record of its past and of the answers;
* `statusSys`       arrivals, reads, clock readings and hang-ups, in any order, beside the store;
* `StatusServer.Inv`   each answer was read off one state of the store, since the request came;
* `told_honestly`   so a later request never hears less, and a wait ends in time, after few reads;
* `status_forward`  that is so of the standalone service, and a result it reports is the engine's.
-/

namespace KatagoWs
open Lib

/-! ## one request -/

def WAIT_POLL : Nat := 1000

/-- Upper bound on how long `?wait=` holds a request open. -/
def MAX_WAIT : Nat := 300000

structure StatusResponse where
  id : Uuid
  status : JobStatus
  result : Option Json
  error : Option String

def StatusResponse.of (job : Job) : StatusResponse :=
  { id := job.id, status := job.status, result := job.result, error := job.error }

/-- how long a request may be held open; with `0` it is answered at once -/
def waitBudget : Option Nat → Nat
  | none => 0
  | some secs => min (secs * 1000) MAX_WAIT

inductive StatusPhase where
  /-- about to read the row, not before `wake` -/
  | asleep (wake : Nat)
  /-- it has read a row of a version of the store, and is about to look at the clock -/
  | holds (job : Job) (version : Nat)

/-- A request under way.  `version`, `before` and `reads` record how far the store was and how many
answers had been given when it came, and how often it has read. -/
structure StatusRequest where
  id : Uuid
  wait : Option Nat
  since : Nat
  version : Nat
  before : Nat
  reads : Nat
  phase : StatusPhase

/-- an answer, the version of the store it was read off, how far the store was by then, and the
time -/
structure StatusAnswer where
  request : StatusRequest
  response : AppResult StatusResponse
  version : Nat
  latest : Nat
  time : Nat

/-- The store and the requests `ι`; `past` and `answers` record the earlier states of the store, and
the answers in order. -/
structure StatusServer (ι σ : Type) where
  past : List σ
  store : σ
  now : Nat
  request : ι → Option StatusRequest
  answers : List StatusAnswer

inductive StatusAct (ι α : Type) where
  | store (a : α)
  | elapse (ms : Nat)
  | arrive (i : ι) (id : Uuid) (wait : Option Nat)
  | read (i : ι)
  | readFails (i : ι) (msg : String)
  | look (i : ι)
  | hangUp (i : ι)

section
variable {ι σ α : Type} [DecidableEq ι]

def StatusServer.versions (s : StatusServer ι σ) : List σ := s.past ++ [s.store]

def StatusServer.put (s : StatusServer ι σ) (i : ι) (r : Option StatusRequest) :
    StatusServer ι σ :=
  { s with request := Function.update s.request i r }

def StatusServer.answer (s : StatusServer ι σ) (i : ι) (r : StatusRequest) (version : Nat)
    (response : AppResult StatusResponse) : StatusServer ι σ :=
  { s.put i none with answers := s.answers ++ [⟨r, response, version, s.past.length, s.now⟩] }

/-- `db::get_job`, on the table `t`: a missing job is a 404 immediately -/
def StatusServer.read (s : StatusServer ι σ) (t : Jobs) (i : ι) (r : StatusRequest) :
    StatusServer ι σ :=
  let r := { r with reads := r.reads + 1 }
  match t.row? r.id with
  | none => s.answer i r s.past.length (.error .notFound)
  | some job =>
    if waitBudget r.wait = 0 then s.answer i r s.past.length (.ok (.of job))
    else s.put i (some { r with phase := .holds job s.past.length })

/-- the clock, after a read of `wait_for_job` -/
def StatusServer.look (s : StatusServer ι σ) (i : ι) (r : StatusRequest) (job : Job)
    (version : Nat) : StatusServer ι σ :=
  let remaining := r.since + waitBudget r.wait - s.now
  if job.status = .done ∨ job.status = .failed ∨ remaining = 0 then
    s.answer i r version (.ok (.of job))
  else s.put i (some { r with phase := .asleep (s.now + min WAIT_POLL remaining) })

def statusStep (S : Sys σ α) (table : σ → Jobs) (s : StatusServer ι σ) :
    StatusAct ι α → Option (StatusServer ι σ)
  | .store a => (S.step s.store a).map fun store =>
    { s with past := s.past ++ [s.store], store }
  | .elapse ms => some { s with now := s.now + ms }
  | .arrive i id wait =>
    if (s.request i).isNone then
      some (s.put i (some
        { id, wait, since := s.now, version := s.past.length, before := s.answers.length
          reads := 0, phase := .asleep s.now }))
    else none
  | .read i => (s.request i).bind fun r =>
    match r.phase with
    | .asleep wake => if wake ≤ s.now then some (s.read (table s.store) i r) else none
    | .holds _ _ => none
  | .readFails i msg => (s.request i).bind fun r =>
    match r.phase with
    | .asleep wake =>
      if wake ≤ s.now then
        some (s.answer i { r with reads := r.reads + 1 } s.past.length (.error (.db msg)))
      else none
    | .holds _ _ => none
  | .look i => (s.request i).bind fun r =>
    match r.phase with
    | .asleep _ => none
    | .holds job version => some (s.look i r job version)
  | .hangUp i => some (s.put i none)

def statusSys (ι : Type) [DecidableEq ι] (S : Sys σ α) (table : σ → Jobs) :
    Sys (StatusServer ι σ) (StatusAct ι α) where
  init s := S.init s.store ∧ s.past = [] ∧ s.answers = [] ∧ ∀ i, s.request i = none
  step := statusStep S table

/-! ## what a request may say -/

/-- what a read of the table `t` answers -/
def ReadOff (t : Jobs) (id : Uuid) : AppResult StatusResponse → Prop
  | .ok x => ∃ job, t.row? id = some job ∧ x.id = job.id ∧ x.status = job.status ∧
      x.result = job.result ∧ x.error = job.error
  | .error err => err = .notFound ∧ t.row? id = none ∨ ∃ msg, err = .db msg

theorem StatusResponse.eq_of {x : StatusResponse} {job : Job} (hid : x.id = job.id)
    (hstatus : x.status = job.status) (hresult : x.result = job.result)
    (herror : x.error = job.error) : x = .of job := by
  cases x
  cases hid
  cases hstatus
  cases hresult
  cases herror
  rfl

theorem ReadOff.found {t : Jobs} {id : Uuid} {x : StatusResponse} (h : ReadOff t id (.ok x)) :
    ∃ job, t.row? id = some job ∧ x = .of job := by
  obtain ⟨job, hj, hid, hstatus, hresult, herror⟩ := h
  exact ⟨job, hj, StatusResponse.eq_of hid hstatus hresult herror⟩

/-- the second answer is no step back from the first -/
def Forward : AppResult StatusResponse → AppResult StatusResponse → Prop
  | .ok x, .ok y => x.status.rank ≤ y.status.rank ∧ (x.status ∉ nonTerminal → y = x)
  | .ok _, .error err => err ≠ .notFound
  | .error _, _ => True

theorem Jobs.Evolves.row? {t t' : Jobs} (h : t.Evolves t') {id : Uuid} {j : Job}
    (hj : t.row? id = some j) : ∃ j', t'.row? id = some j' ∧ j.Evolves j' := by
  obtain ⟨hm, hid⟩ := Jobs.row?_eq_some.mp hj
  obtain ⟨j', hj', hev⟩ := h.2 j hm
  exact ⟨j', Jobs.row?_eq_some.mpr ⟨hj', hev.id.trans hid⟩, hev⟩

theorem Job.Evolves.response {j j' : Job} (h : j.Evolves j') :
    Forward (.ok (.of j)) (.ok (.of j')) := by
  constructor
  · show j.status.rank ≤ j'.status.rank
    rcases h.forward with hsame | hlater
    · exact le_of_eq (congrArg _ hsame.symm)
    · exact le_of_lt hlater
  · intro hterm
    obtain ⟨hstatus, hresult, herror⟩ := h.frozen hterm
    show StatusResponse.mk _ _ _ _ = StatusResponse.mk _ _ _ _
    rw [h.id, hstatus, hresult, herror]

theorem ReadOff.forward {t t' : Jobs} (h : t.Evolves t') {id : Uuid}
    {x y : AppResult StatusResponse} (hx : ReadOff t id x) (hy : ReadOff t' id y) :
    Forward x y := by
  cases x with
  | error err => trivial
  | ok x =>
    obtain ⟨j, hj, rfl⟩ := hx.found
    obtain ⟨j', hj', hev⟩ := h.row? hj
    cases y with
    | error err =>
      rcases hy with ⟨-, hnone⟩ | ⟨msg, rfl⟩
      · rw [hj'] at hnone
        cases hnone
      · exact fun hne => by cases hne
    | ok y =>
      obtain ⟨k, hk, rfl⟩ := hy.found
      rw [hj'] at hk
      cases hk
      exact hev.response

end

/-! ## what holds of the requests and the answers -/

section
variable {ι σ α : Type} {S : Sys σ α} (table : σ → Jobs)

structure StatusRequest.Inv (s : StatusServer ι σ) (r : StatusRequest) : Prop where
  version : r.version < s.versions.length
  before : r.before ≤ s.answers.length
  earlier : ∀ k a, k < r.before → s.answers[k]? = some a → a.version ≤ r.version
  found : 0 < r.reads → r.id ∈ (table s.store).ids
  asleep : ∀ wake, r.phase = .asleep wake →
    r.since + min (r.reads * WAIT_POLL) (waitBudget r.wait) ≤ wake ∧
      r.reads * WAIT_POLL < waitBudget r.wait + WAIT_POLL
  holds : ∀ job v, r.phase = .holds job v → 0 < r.reads ∧
    r.since + min ((r.reads - 1) * WAIT_POLL) (waitBudget r.wait) ≤ s.now ∧
      r.reads * WAIT_POLL < waitBudget r.wait + 2 * WAIT_POLL ∧ r.version ≤ v ∧
      ∃ u, s.versions[v]? = some u ∧ (table u).row? r.id = some job

structure StatusAnswer.Inv (s : StatusServer ι σ) (a : StatusAnswer) : Prop where
  version : a.request.version ≤ a.version ∧ a.version ≤ a.latest
  read : ∃ u, s.versions[a.version]? = some u ∧ ReadOff (table u) a.request.id a.response
  before : a.request.before ≤ s.answers.length
  earlier : ∀ k b, k < a.request.before → s.answers[k]? = some b →
    b.version ≤ a.request.version
  reads : a.request.reads * WAIT_POLL < waitBudget a.request.wait + 2 * WAIT_POLL
  patient : ∀ x, a.response = .ok x → x.status ∈ nonTerminal →
    a.request.since + waitBudget a.request.wait ≤ a.time
  missing : a.response = .error .notFound → a.request.reads = 1

/-- `s'` is later: nothing of the record is lost, nor any job -/
structure StatusServer.Later (s s' : StatusServer ι σ) : Prop where
  versions : s.versions <+: s'.versions
  answers : s.answers <+: s'.answers
  now : s.now ≤ s'.now
  ids : ∀ id ∈ (table s.store).ids, id ∈ (table s'.store).ids

variable {table}

theorem prefix_getElem? {A : Type} {l l' : List A} (h : l <+: l') {k : Nat} (hk : k < l.length) :
    l'[k]? = l[k]? := by
  obtain ⟨rest, rfl⟩ := h
  exact List.getElem?_append_left hk

theorem lt_of_getElem? {A : Type} {l : List A} {k : Nat} {a : A} (h : l[k]? = some a) :
    k < l.length := (List.getElem?_eq_some_iff.mp h).1

variable {s s' : StatusServer ι σ}

theorem StatusServer.Later.version (h : s.Later table s') {v : Nat} {u : σ}
    (hu : s.versions[v]? = some u) : s'.versions[v]? = some u := by
  rw [prefix_getElem? h.versions (lt_of_getElem? hu)]
  exact hu

theorem StatusServer.Later.answer (h : s.Later table s') {n k : Nat} {a : StatusAnswer}
    (hn : n ≤ s.answers.length) (hk : k < n) (ha : s'.answers[k]? = some a) :
    s.answers[k]? = some a := by
  rw [← prefix_getElem? h.answers (lt_of_lt_of_le hk hn)]
  exact ha

theorem StatusRequest.Inv.later {r : StatusRequest} (hr : r.Inv table s)
    (h : s.Later table s') : r.Inv table s' where
  version := lt_of_lt_of_le hr.version h.versions.length_le
  before := le_trans hr.before h.answers.length_le
  earlier k a hk ha := hr.earlier k a hk (h.answer hr.before hk ha)
  found hn := h.ids _ (hr.found hn)
  asleep := hr.asleep
  holds job v hp := by
    obtain ⟨hn, hnow, hreads, hv, u, hu, hrow⟩ := hr.holds job v hp
    exact ⟨hn, le_trans hnow h.now, hreads, hv, u, h.version hu, hrow⟩

theorem StatusAnswer.Inv.later {a : StatusAnswer} (ha : a.Inv table s)
    (h : s.Later table s') : a.Inv table s' where
  version := ha.version
  read := by
    obtain ⟨u, hu, hread⟩ := ha.read
    exact ⟨u, h.version hu, hread⟩
  before := le_trans ha.before h.answers.length_le
  earlier k b hk hb := ha.earlier k b hk (h.answer ha.before hk hb)
  reads := ha.reads
  patient := ha.patient
  missing := ha.missing

/-- **The invariant** of the requests beside a store whose table only evolves. -/
structure StatusServer.Inv (S : Sys σ α) (table : σ → Jobs) (s : StatusServer ι σ) : Prop where
  reached : ∀ u ∈ s.versions, S.Reachable u
  evolves : s.versions.Pairwise fun u v => (table u).Evolves (table v)
  request : ∀ i r, s.request i = some r → r.Inv table s
  answers : ∀ a ∈ s.answers, a.Inv table s

theorem StatusServer.current (s : StatusServer ι σ) :
    s.versions[s.past.length]? = some s.store := by
  show (s.past ++ [s.store])[s.past.length]? = some s.store
  rw [List.getElem?_append_right (le_refl _), Nat.sub_self]
  rfl

theorem StatusServer.versions_length (s : StatusServer ι σ) :
    s.versions.length = s.past.length + 1 := List.length_append

theorem StatusServer.Inv.store (h : s.Inv S table) {a : α} {store : σ}
    (hev : (table s.store).Evolves (table store)) (hs : S.step s.store a = some store) :
    ({ s with past := s.past ++ [s.store], store } : StatusServer ι σ).Inv S table := by
  have hmem : s.store ∈ s.versions := List.mem_append_right _ (List.mem_singleton.mpr rfl)
  have hlater : s.Later table { s with past := s.past ++ [s.store], store } :=
    ⟨List.prefix_append _ _, List.prefix_refl _, le_refl _, fun _ hid => hev.ids hid⟩
  refine ⟨?_, ?_, fun i r hr => (h.request i r hr).later hlater,
    fun b hb => (h.answers b hb).later hlater⟩
  · intro u hu
    rcases List.mem_append.mp hu with hold | hnew
    · exact h.reached u hold
    · rw [List.mem_singleton.mp hnew]
      exact (h.reached _ hmem).exec (Sys.exec_one hs)
  · show (s.versions ++ [store]).Pairwise _
    rw [List.pairwise_append]
    refine ⟨h.evolves, List.pairwise_singleton _ _, ?_⟩
    intro u hu v hv
    rw [List.mem_singleton.mp hv]
    -- the last version evolves to the new one, and every other to the last
    rcases List.mem_append.mp hu with hpast | hlast
    · exact ((List.pairwise_append.mp h.evolves).2.2 u hpast _
        (List.mem_singleton.mpr rfl)).trans hev
    · rw [List.mem_singleton.mp hlast]
      exact hev

variable [DecidableEq ι]

theorem StatusServer.put_request {i j : ι} {r : Option StatusRequest} {r' : StatusRequest}
    (h : (s.put i r).request j = some r') : (j = i ∧ r = some r') ∨ s.request j = some r' := by
  change Function.update s.request i r j = some r' at h
  by_cases hj : j = i
  · subst hj
    rw [Function.update_self] at h
    exact Or.inl ⟨rfl, h⟩
  · rw [Function.update_of_ne hj] at h
    exact Or.inr h

theorem StatusServer.Inv.put (h : s.Inv S table) {i : ι} {r : Option StatusRequest}
    (hr : ∀ r', r = some r' → r'.Inv table s) : (s.put i r).Inv S table where
  reached := h.reached
  evolves := h.evolves
  request j r' hj := by
    have hsame : s.Later table (s.put i r) :=
      ⟨List.prefix_refl _, List.prefix_refl _, le_refl _, fun _ hid => hid⟩
    rcases StatusServer.put_request hj with ⟨-, hnew⟩ | hold
    · exact (hr r' hnew).later hsame
    · exact (h.request j r' hold).later hsame
  answers a ha := (h.answers a ha).later
    ⟨List.prefix_refl _, List.prefix_refl _, le_refl _, fun _ hid => hid⟩

/-- an answer to the request `r` of `i`, read off the version `v` -/
theorem StatusServer.Inv.answer (h : s.Inv S table) {i : ι} {r : StatusRequest} {v : Nat}
    {response : AppResult StatusResponse}
    (hbefore : r.before ≤ s.answers.length)
    (hearlier : ∀ k a, k < r.before → s.answers[k]? = some a → a.version ≤ r.version)
    (hv : r.version ≤ v)
    (hread : ∃ u, s.versions[v]? = some u ∧ ReadOff (table u) r.id response)
    (hreads : r.reads * WAIT_POLL < waitBudget r.wait + 2 * WAIT_POLL)
    (hpatient : ∀ x, response = .ok x → x.status ∈ nonTerminal →
      r.since + waitBudget r.wait ≤ s.now)
    (hmissing : response = .error .notFound → r.reads = 1) :
    (s.answer i r v response).Inv S table := by
  have hlater : s.Later table (s.answer i r v response) :=
    ⟨List.prefix_refl _, List.prefix_append _ _, le_refl _, fun _ hid => hid⟩
  have hlast : v ≤ s.past.length := by
    obtain ⟨u, hu, -⟩ := hread
    have hlt := lt_of_getElem? hu
    rw [s.versions_length] at hlt
    omega
  refine ⟨h.reached, h.evolves, ?_, ?_⟩
  · intro j r' hj
    rcases StatusServer.put_request (s := s) (r := none) hj with ⟨-, hnew⟩ | hold
    · cases hnew
    · exact (h.request j r' hold).later hlater
  · intro a ha
    rcases List.mem_append.mp ha with hold | hnew
    · exact (h.answers a hold).later hlater
    · rw [List.mem_singleton] at hnew
      subst hnew
      exact
        { version := ⟨hv, hlast⟩
          read := hread
          before := le_trans hbefore hlater.answers.length_le
          earlier := fun k b hk hb => hearlier k b hk (hlater.answer hbefore hk hb)
          reads := hreads
          patient := hpatient
          missing := hmissing }

theorem StatusServer.Inv.read (h : s.Inv S table) {i : ι} {r : StatusRequest} {wake : Nat}
    (hr : s.request i = some r) (hphase : r.phase = .asleep wake) (hwake : wake ≤ s.now) :
    (s.read (table s.store) i r).Inv S table := by
  have hI := h.request i r hr
  obtain ⟨hsince, hreads⟩ := hI.asleep wake hphase
  have hversion : r.version ≤ s.past.length := by
    have hlt := hI.version
    rw [s.versions_length] at hlt
    omega
  have hcount : (r.reads + 1) * WAIT_POLL < waitBudget r.wait + 2 * WAIT_POLL := by
    rw [Nat.add_mul]
    omega
  unfold StatusServer.read
  dsimp only
  cases hrow : (table s.store).row? r.id with
  | none =>
    dsimp only
    refine h.answer hI.before hI.earlier hversion ⟨_, s.current, Or.inl ⟨rfl, hrow⟩⟩ hcount
      (fun x hx => by cases hx) fun _ => ?_
    -- a job that an earlier read found is still there
    have hfirst : ¬ 0 < r.reads :=
      fun hn => Jobs.row?_eq_none.mp hrow (hI.found hn)
    show r.reads + 1 = 1
    omega
  | some job =>
    have hid : r.id ∈ (table s.store).ids := by
      obtain ⟨hm, he⟩ := Jobs.row?_eq_some.mp hrow
      exact List.mem_map.mpr ⟨job, hm, he⟩
    dsimp only
    by_cases hnow : waitBudget r.wait = 0
    · rw [if_pos hnow]
      refine h.answer hI.before hI.earlier hversion
        ⟨_, s.current, job, hrow, rfl, rfl, rfl, rfl⟩ hcount (fun x _ _ => ?_) fun he => by cases he
      show r.since + waitBudget r.wait ≤ s.now
      omega
    · rw [if_neg hnow]
      refine h.put fun r' hr' => ?_
      cases hr'
      refine
        { version := hI.version
          before := hI.before
          earlier := hI.earlier
          found := fun _ => hid
          asleep := fun w hw => by cases hw
          holds := ?_ }
      intro j v hp
      cases hp
      refine ⟨Nat.succ_pos _, ?_, hcount, hversion, _, s.current, hrow⟩
      show r.since + min ((r.reads + 1 - 1) * WAIT_POLL) (waitBudget r.wait) ≤ s.now
      rw [Nat.add_sub_cancel]
      exact le_trans hsince hwake

theorem StatusServer.Inv.look (h : s.Inv S table) {i : ι} {r : StatusRequest} {job : Job}
    {v : Nat} (hr : s.request i = some r) (hphase : r.phase = .holds job v) :
    (s.look i r job v).Inv S table := by
  have hI := h.request i r hr
  obtain ⟨hpos, hsince, hreads, hv, u, hu, hrow⟩ := hI.holds job v hphase
  unfold StatusServer.look
  dsimp only
  split
  case isTrue hend =>
    refine h.answer hI.before hI.earlier hv ⟨u, hu, job, hrow, rfl, rfl, rfl, rfl⟩ hreads ?_
      fun he => by cases he
    intro x hx hopen
    cases hx
    change job.status ∈ nonTerminal at hopen
    rcases hend with hdone | hfailed | hnone
    · rw [hdone] at hopen
      exact absurd hopen (by decide)
    · rw [hfailed] at hopen
      exact absurd hopen (by decide)
    · omega
  case isFalse hopen =>
    have hleft : r.since + waitBudget r.wait - s.now ≠ 0 := fun h0 => hopen (Or.inr (Or.inr h0))
    refine h.put fun r' hr' => ?_
    cases hr'
    refine
      { version := hI.version
        before := hI.before
        earlier := hI.earlier
        found := hI.found
        asleep := ?_
        holds := fun j w hp => by cases hp }
    intro w hw
    cases hw
    show r.since + min (r.reads * WAIT_POLL) (waitBudget r.wait)
        ≤ s.now + min WAIT_POLL (r.since + waitBudget r.wait - s.now) ∧
      r.reads * WAIT_POLL < waitBudget r.wait + WAIT_POLL
    have hsplit : r.reads * WAIT_POLL = (r.reads - 1) * WAIT_POLL + WAIT_POLL := by
      rw [← Nat.succ_mul]
      congr 1
      omega
    rw [hsplit] at hreads ⊢
    omega

variable (hS : ∀ s a t, S.Reachable s → S.step s a = some t → (table s).Evolves (table t))
include hS

theorem StatusServer.Inv.step (h : s.Inv S table) {a : StatusAct ι α}
    (hs : statusStep S table s a = some s') : s'.Inv S table := by
  cases a with
  | store a =>
    obtain ⟨store, hstore, rfl⟩ := Option.map_eq_some_iff.mp hs
    refine h.store (hS _ _ _ (h.reached _ ?_) hstore) hstore
    exact List.mem_append_right _ (List.mem_singleton.mpr rfl)
  | elapse ms =>
    cases hs
    have hlater : s.Later table { s with now := s.now + ms } :=
      ⟨List.prefix_refl _, List.prefix_refl _, Nat.le_add_right _ _, fun _ hid => hid⟩
    exact ⟨h.reached, h.evolves, fun i r hr => (h.request i r hr).later hlater,
      fun b hb => (h.answers b hb).later hlater⟩
  | arrive i id wait =>
    obtain ⟨-, he⟩ := Option.ite_none_right_eq_some.mp hs
    cases he
    refine h.put fun r' hr' => ?_
    cases hr'
    refine
      { version := ?_
        before := le_refl _
        earlier := ?_
        found := fun hn => absurd hn (lt_irrefl 0)
        asleep := ?_
        holds := fun j v hp => by cases hp }
    · rw [s.versions_length]
      exact Nat.lt_succ_self _
    · intro k a _ ha
      obtain ⟨u, hu, -⟩ := (h.answers a (List.mem_of_getElem? ha)).read
      have hlt := lt_of_getElem? hu
      rw [s.versions_length] at hlt
      exact Nat.le_of_lt_succ hlt
    · intro wake hw
      cases hw
      show s.now + min (0 * WAIT_POLL) (waitBudget wait) ≤ s.now ∧ 0 * WAIT_POLL < _
      rw [Nat.zero_mul, Nat.zero_min]
      exact ⟨le_refl _, Nat.add_pos_right _ (by decide)⟩
  | read i =>
    obtain ⟨r, hr, he⟩ := Option.bind_eq_some_iff.mp hs
    cases hphase : r.phase with
    | asleep wake =>
      rw [hphase] at he
      obtain ⟨hwake, he⟩ := Option.ite_none_right_eq_some.mp he
      cases he
      exact h.read hr hphase hwake
    | holds job v =>
      rw [hphase] at he
      cases he
  | readFails i msg =>
    obtain ⟨r, hr, he⟩ := Option.bind_eq_some_iff.mp hs
    cases hphase : r.phase with
    | asleep wake =>
      rw [hphase] at he
      obtain ⟨hwake, he⟩ := Option.ite_none_right_eq_some.mp he
      cases he
      have hI := h.request i r hr
      obtain ⟨-, hreads⟩ := hI.asleep wake hphase
      have hversion := hI.version
      rw [s.versions_length] at hversion
      refine h.answer hI.before hI.earlier (Nat.le_of_lt_succ hversion)
        ⟨_, s.current, Or.inr ⟨msg, rfl⟩⟩ ?_ (fun x hx => by cases hx) fun he => by cases he
      show (r.reads + 1) * WAIT_POLL < waitBudget r.wait + 2 * WAIT_POLL
      rw [Nat.add_mul]
      omega
    | holds job v =>
      rw [hphase] at he
      cases he
  | look i =>
    obtain ⟨r, hr, he⟩ := Option.bind_eq_some_iff.mp hs
    cases hphase : r.phase with
    | asleep wake =>
      rw [hphase] at he
      cases he
    | holds job v =>
      rw [hphase] at he
      cases he
      exact h.look hr hphase
  | hangUp i =>
    cases hs
    exact h.put fun r' hr' => by cases hr'

theorem status_run (h : (statusSys ι S table).Reachable s) : s.Inv S table := by
  refine h.rule ?_ fun s a s' hI hs => hI.step hS hs
  rintro s ⟨hinit, hpast, hans, hreq⟩
  have hone : s.versions = [s.store] := by
    unfold StatusServer.versions
    rw [hpast]
    rfl
  refine ⟨?_, ?_, ?_, ?_⟩
  · intro u hu
    rw [hone, List.mem_singleton] at hu
    rw [hu]
    exact Sys.Reachable.init hinit
  · rw [hone]
    exact List.pairwise_singleton _ _
  · intro i r hr
    rw [hreq i] at hr
    cases hr
  · intro a ha
    rw [hans] at ha
    cases ha

variable (table) in
/-- What the clients are told, whatever moves between two reads. -/
structure StatusServer.Honest (s : StatusServer ι σ) : Prop where
  /-- each answer was read off one state of the store, between the arrival and the answer -/
  linear : ∀ a ∈ s.answers, a.request.version ≤ a.version ∧ a.version ≤ a.latest ∧
    ∃ u, s.versions[a.version]? = some u ∧ ReadOff (table u) a.request.id a.response
  /-- who asks after an answer was given hears nothing older -/
  forward : ∀ k a b, s.answers[k]? = some a → b ∈ s.answers → k < b.request.before →
    a.request.id = b.request.id → Forward a.response b.response
  /-- a job is reported unfinished only when the time is up -/
  patient : ∀ a ∈ s.answers, ∀ x, a.response = .ok x → x.status ∈ nonTerminal →
    a.request.since + waitBudget a.request.wait ≤ a.time
  reads : ∀ a ∈ s.answers, a.request.reads ≤ waitBudget a.request.wait / WAIT_POLL + 1
  /-- a missing job is told at the first read -/
  missing : ∀ a ∈ s.answers, a.response = .error .notFound → a.request.reads = 1

omit [DecidableEq ι] hS in
theorem StatusServer.Inv.version_evolves (h : s.Inv S table) {v w : Nat} {t u : σ} (hvw : v ≤ w)
    (ht : s.versions[v]? = some t) (hu : s.versions[w]? = some u) :
    (table t).Evolves (table u) := by
  rcases Nat.eq_or_lt_of_le hvw with rfl | hlt
  · rw [ht] at hu
    cases hu
    exact Jobs.Evolves.refl _
  · obtain ⟨hv, rfl⟩ := List.getElem?_eq_some_iff.mp ht
    obtain ⟨hw, rfl⟩ := List.getElem?_eq_some_iff.mp hu
    exact List.pairwise_iff_getElem.mp h.evolves v w hv hw hlt

/-- **Clients are told honestly**, beside any store whose table only evolves. -/
theorem told_honestly (h : (statusSys ι S table).Reachable s) : s.Honest table := by
  have hI := status_run hS h
  refine ⟨?_, ?_, ?_, ?_, ?_⟩
  · intro a ha
    have hA := hI.answers a ha
    exact ⟨hA.version.1, hA.version.2, hA.read⟩
  · intro k a b ha hb hk hid
    have hB := hI.answers b hb
    obtain ⟨t, ht, hx⟩ := (hI.answers a (List.mem_of_getElem? ha)).read
    obtain ⟨u, hu, hy⟩ := hB.read
    have hle : a.version ≤ b.version := le_trans (hB.earlier k a hk ha) hB.version.1
    rw [← hid] at hy
    exact hx.forward (hI.version_evolves hle ht hu) hy
  · exact fun a ha => (hI.answers a ha).patient
  · intro a ha
    have hreads := (hI.answers a ha).reads
    have hdvd : WAIT_POLL ∣ waitBudget a.request.wait := by
      cases a.request.wait with
      | none => exact ⟨0, rfl⟩
      | some secs =>
        show WAIT_POLL ∣ min (secs * 1000) MAX_WAIT
        rcases Nat.le_total (secs * 1000) MAX_WAIT with hle | hle
        · rw [Nat.min_eq_left hle]
          exact ⟨secs, Nat.mul_comm _ _⟩
        · rw [Nat.min_eq_right hle]
          exact ⟨300, rfl⟩
    obtain ⟨n, hn⟩ := hdvd
    rw [hn] at hreads ⊢
    rw [Nat.mul_div_cancel_left n (by decide)]
    unfold WAIT_POLL at hreads
    omega
  · exact fun a ha => (hI.answers a ha).missing

end

/-! ## the standalone service -/

section
variable {κ ι τ χ : Type} [DecidableEq κ] [DecidableEq ι] {engine : EngineRun χ}
  {cfg : WorkerConfig}

/-- a reported result is genuine for what was submitted, and a reported error says that the service
gave up -/
def StatusResponse.Told (genuine : NewJob → Json → Prop) (u : Store τ) (x : StatusResponse) :
    Prop :=
  (∀ v, x.result = some v → ∃ job, (x.id, job) ∈ u.submitted ∧ genuine job v) ∧
    ∀ error, x.error = some error → error = GIVEN_UP

theorem Job.fate_eq {j : Job} (h : j.resultXorError = true) :
    (∀ v, j.result = some v → j.fate = .done v) ∧
      ∀ error, j.error = some error → j.fate = .failed error := by
  unfold Job.resultXorError at h
  unfold Job.fate
  constructor
  · intro v hv
    rw [hv] at h ⊢
    cases hstatus : j.status <;> rw [hstatus] at h <;> simp_all [nonTerminal]
  · intro error he
    rw [he] at h ⊢
    cases hstatus : j.status <;> rw [hstatus] at h <;> simp_all [nonTerminal]

theorem Store.Told.response {genuine : NewJob → Json → Prop} {u : Store τ} (h : u.Told genuine)
    (hI : u.Inv) {id : Uuid} {j : Job} (hj : u.jobs.row? id = some j) :
    (StatusResponse.of j).Told genuine u := by
  obtain ⟨hm, hid⟩ := Jobs.row?_eq_some.mp hj
  obtain ⟨hdone, hfailed⟩ := Job.fate_eq (hI.checked j hm)
  obtain ⟨job, hjob⟩ := Store.submission_isSome hI hj
  have hentry : u.entry id = some ⟨job, j.fate⟩ := by
    unfold Store.entry
    rw [hjob, hj]
    rfl
  constructor
  · intro v hv
    refine ⟨job, ?_, h.done id _ v hentry (hdone v hv)⟩
    show (j.id, job) ∈ u.submitted
    rw [hid]
    exact Store.mem_submitted hjob
  · exact fun error he => h.failed id _ error hentry (hfailed error he)

abbrev standaloneStatus (κ ι τ : Type) [DecidableEq κ] [DecidableEq ι] (engine : EngineRun χ)
    (cfg : WorkerConfig) :=
  statusSys κ (standaloneSys ι τ engine cfg) fun pool => pool.mem.jobs

/-- **What `GET /analyse/{id}` says** of the standalone service, whatever requests, loops, crashes
and redeliveries interleave: each answer was true between arrival and reply, none takes an earlier
one back, a wait ends in time; and a result is the engine's, for the game submitted under the id. -/
theorem status_forward {s : StatusServer κ (WorkerPool ι EngineCall τ fun _ => AppResult Json)}
    (h : (standaloneStatus κ ι τ engine cfg).Reachable s) :
    s.Honest (fun pool => pool.mem.jobs) ∧
      ∀ a ∈ s.answers, ∀ x, a.response = .ok x →
        ∃ u, s.versions[a.version]? = some u ∧ x.Told (Answered engine) u.mem := by
  have hevolves : ∀ (p : WorkerPool ι EngineCall τ fun _ => AppResult Json) (a : WorkerAct ι τ χ)
      q, (standaloneSys ι τ engine cfg).Reachable p →
      (standaloneSys ι τ engine cfg).step p a = some q → p.mem.jobs.Evolves q.mem.jobs := by
    intro p a q hp hs
    obtain ⟨ops, hops⟩ := workerStep_writes hs
    exact jobsSys_evolves (worker_jobs hp) hops
  refine ⟨told_honestly hevolves h, fun a ha x hx => ?_⟩
  have hI := status_run hevolves h
  obtain ⟨u, hu, hread⟩ := (hI.answers a ha).read
  rw [hx] at hread
  obtain ⟨j, hj, rfl⟩ := hread.found
  obtain ⟨hserved, hv⟩ := standalone_served (hI.reached u (List.mem_of_getElem? hu))
  exact ⟨u, hu, (hserved.told hv).response hserved.covered.1 hj⟩

end

/-! Job 1 is awaited by a client from before its first delivery until it is done; another asks
once, and asks for a job that is not there. -/

def awaitedDelivery : List (StatusAct ℕ (WorkerAct ℕ Unit (AppResult Json))) :=
  [.store (.submit 1 ⟨"(;B[pd])", none⟩), .arrive 0 1 (some 2), .read 0, .look 0,
    .arrive 1 1 none, .read 1, .arrive 1 7 (some 5), .read 1,
    .store (.lease 0 1), .store (.call 0 .ok), .store (.call 0 .ok),
    .store (.call 0 (.exec (.ok .null))), .store (.call 0 .ok), .store (.call 0 .ok),
    .elapse 1000, .read 0, .look 0]

def emptyStatus : StatusServer ℕ (WorkerPool ℕ EngineCall Unit fun _ => AppResult Json) :=
  { past := [], store := emptyWorkers, now := 0, request := fun _ => none, answers := [] }

def afterAwaited : StatusServer ℕ (WorkerPool ℕ EngineCall Unit fun _ => AppResult Json) :=
  ((standaloneStatus ℕ ℕ Unit anyEngine ⟨3⟩).exec emptyStatus awaitedDelivery).getD emptyStatus

theorem status_forward_awaited :
    afterAwaited.Honest (fun pool => pool.mem.jobs) ∧
      afterAwaited.answers.map (fun a => (a.request.id, a.request.reads, a.time)) =
        [(1, 1, 0), (7, 1, 0), (1, 2, 1000)] := by
  have hreach : (standaloneStatus ℕ ℕ Unit anyEngine ⟨3⟩).Reachable afterAwaited :=
    ⟨emptyStatus, awaitedDelivery, ⟨⟨rfl, rfl, rfl, fun _ => rfl⟩, rfl, rfl, fun _ => rfl⟩, rfl⟩
  exact ⟨(status_forward hreach).1, rfl⟩

end KatagoWs
