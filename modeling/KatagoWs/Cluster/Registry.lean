import Mathlib.Data.List.Perm.Basic
import Mathlib.Data.List.Sort
import Mathlib.Logic.Function.Basic
import KatagoWs.Basic
import KatagoWs.Lib.Chan
import KatagoWs.Lib.Run

/-!
# The registry of connected workers

One owner task holds the map of workers; sessions and handlers reach it through one bounded
channel.  A sender that awaits is given room first and puts its command in later, so room can be
taken while the channel still has some; the drop of a guard cannot wait, and its command is lost
when there is no room.

* `ownerServe`       one command of the owner's loop;
* `registryStep`     the sessions, the handlers and the owner, in any order;
* `Registry.Inv`     a session with an id has an entry until its `Deregister` is served;
* `Watch`            what a run leaves no trace of: who was dropped without room, what was served;
* `registry_shows`   with every command served, the entries are the live sessions and those whose
                     guard found no room, and every request was answered with the map;
* `ghost_shown`      such a session is still listed.
-/

set_option linter.unusedSectionVars false

namespace KatagoWs
open Lib

/-- minted by the owner, from 1 on -/
abbrev SessionId := Nat

def CMD_BUFFER : Nat := 128

structure Announced where
  name : String
  peer : Option String
  slots : Nat
deriving DecidableEq, Repr

structure WorkerInfo where
  id : SessionId
  name : String
  peer : Option String
  slots : Nat
  connectedAt : Timestamp
deriving DecidableEq, Repr

/-- the commands; a reply channel is the session or the request that waits on it -/
inductive RegistryCmd (ι : Type) where
  | register (worker : Announced) (reply : ι)
  | deregister (id : SessionId)
  | snapshot (reply : Nat)
deriving DecidableEq, Repr

/-- a session: before `register`, waiting for its id, with the id on its way, holding its guard,
or after the guard's drop, whose `try_send` went through or not -/
inductive Conn where
  | outside
  | registering
  | answered (id : SessionId)
  | guarded (id : SessionId)
  | dropped (id : SessionId) (sent : Bool)
deriving DecidableEq, Repr

def Conn.id? : Conn → Option SessionId
  | .outside => none
  | .registering => none
  | .answered id => some id
  | .guarded id => some id
  | .dropped id _ => some id

/-- the session has sent its `Deregister` -/
def Conn.left? : Conn → Option SessionId
  | .dropped id true => some id
  | _ => none

theorem Conn.id_of_left {c : Conn} {id : SessionId} (h : c.left? = some id) :
    c.id? = some id := by
  cases c with
  | dropped id sent =>
    cases sent with
    | true => exact h
    | false => cases h
  | _ => cases h

def RegistryCmd.client? {ι : Type} : RegistryCmd ι → Option ι
  | .register _ i => some i
  | _ => none

def RegistryCmd.leaver? {ι : Type} : RegistryCmd ι → Option SessionId
  | .deregister id => some id
  | _ => none

structure Owned where
  workers : List (SessionId × WorkerInfo)
  nextId : SessionId

/-- `granted` are the commands of senders that were given room; `shown` are the snapshots -/
structure Registry (ι : Type) where
  cmds : Chan (RegistryCmd ι) CMD_BUFFER
  granted : List (RegistryCmd ι)
  owned : Owned
  conn : ι → Conn
  shown : List (Nat × List WorkerInfo)

section
variable {ι : Type}

def Registry.new : Registry ι := ⟨Chan.empty, [], ⟨[], 1⟩, fun _ => .outside, []⟩

/-! ## the owner -/

def Owned.register (o : Owned) (now : Timestamp) (worker : Announced) : Owned where
  workers := (o.nextId, ⟨o.nextId, worker.name, worker.peer, worker.slots, now⟩) ::
    o.workers.filter fun e => e.1 ≠ o.nextId
  nextId := o.nextId + 1

def Owned.deregister (o : Owned) (id : SessionId) : Owned :=
  { o with workers := o.workers.filter fun e => e.1 ≠ id }

def Owned.snapshot (o : Owned) : List WorkerInfo :=
  (o.workers.map Prod.snd).insertionSort fun a b => a.id ≤ b.id

variable [DecidableEq ι]

/-- `owner_loop` serves a command; its reply reaches a waiting session or handler -/
def ownerServe (now : Timestamp) (s : Registry ι) : RegistryCmd ι → Registry ι
  | .register worker i =>
    { s with
      owned := s.owned.register now worker
      conn := Function.update s.conn i (.answered s.owned.nextId) }
  | .deregister id => { s with owned := s.owned.deregister id }
  | .snapshot r => { s with shown := (r, s.owned.snapshot) :: s.shown }

/-! ## sessions and handlers -/

/-- a place of the channel that no sender was given -/
def Registry.room (s : Registry ι) : Bool :=
  s.cmds.items.length + s.granted.length < CMD_BUFFER

inductive RegistryAct (ι : Type) where
  | register (i : ι)
  | snapshot (r : Nat)
  | put (n : Nat)
  | serve (now : Timestamp)
  | resume (i : ι)
  | drop (i : ι)

def Registry.dropGuard (s : Registry ι) (i : ι) (id : SessionId) : Registry ι :=
  if s.room then
    { s with
      cmds := s.cmds.trySend (.deregister id)
      conn := Function.update s.conn i (.dropped id true) }
  else { s with conn := Function.update s.conn i (.dropped id false) }

def registryStep (hello : ι → Announced) (s : Registry ι) : RegistryAct ι → Option (Registry ι)
  | .register i =>
    match s.conn i with
    | .outside =>
      if s.room then
        some { s with
          granted := s.granted ++ [.register (hello i) i]
          conn := Function.update s.conn i .registering }
      else none
    | _ => none
  | .snapshot r => if s.room then some { s with granted := s.granted ++ [.snapshot r] } else none
  | .put n =>
    match s.granted[n]? with
    | some cmd => (s.cmds.send cmd).map fun cmds =>
        { s with cmds, granted := s.granted.eraseIdx n }
    | none => none
  | .serve now => s.cmds.recv.map fun (cmd, cmds) => ownerServe now { s with cmds } cmd
  | .resume i =>
    match s.conn i with
    | .answered id => some { s with conn := Function.update s.conn i (.guarded id) }
    | _ => none
  | .drop i =>
    match s.conn i with
    | .guarded id => some (s.dropGuard i id)
    | _ => none

/-- the registry from its start: any sessions, any requests, the owner alive -/
def registrySys (hello : ι → Announced) : Sys (Registry ι) (RegistryAct ι) where
  init s := s = Registry.new
  step := registryStep hello

/-! ## the invariant -/

def Owned.ids (o : Owned) : List SessionId := o.workers.map Prod.fst

def Registry.coming (s : Registry ι) : List (RegistryCmd ι) := s.cmds.items ++ s.granted

/-- the sessions whose `Deregister` is in the channel -/
def Registry.leavers (s : Registry ι) : List SessionId :=
  s.cmds.items.filterMap RegistryCmd.leaver?

structure Owned.Inv (o : Owned) : Prop where
  distinct : o.ids.Nodup
  minted : ∀ id ∈ o.ids, id < o.nextId
  keyed : ∀ e ∈ o.workers, e.2.id = e.1

/-- **Sessions, channel and owner**: a session that registers has one command on its way, and
from its answer on an entry, until its `Deregister` is served. -/
structure Registry.Inv (s : Registry ι) : Prop where
  bounded : s.coming.length ≤ CMD_BUFFER
  once : (s.coming.filterMap RegistryCmd.client?).Nodup
  waiting : ∀ i, i ∈ s.coming.filterMap RegistryCmd.client? ↔ s.conn i = .registering
  granted : ∀ id, .deregister id ∉ s.granted
  leavers : s.leavers.Nodup
  left : ∀ id ∈ s.leavers, ∃ i, (s.conn i).left? = some id
  owned : s.owned.Inv
  minted : ∀ i id, (s.conn i).id? = some id → id < s.owned.nextId
  one : ∀ i j id, (s.conn i).id? = some id → (s.conn j).id? = some id → i = j
  entry : ∀ i id, (s.conn i).id? = some id →
    (id ∈ s.owned.ids ↔ (s.conn i).left? = none ∨ id ∈ s.leavers)
  known : ∀ id ∈ s.owned.ids, ∃ i, (s.conn i).id? = some id

theorem registry_new : (Registry.new : Registry ι).Inv where
  bounded := Nat.zero_le _
  once := List.nodup_nil
  waiting _ := ⟨fun h => (by cases h), fun h => (by cases h)⟩
  granted _ h := by cases h
  leavers := List.nodup_nil
  left _ h := by cases h
  owned := ⟨List.nodup_nil, fun _ h => (by cases h), fun _ h => (by cases h)⟩
  minted _ _ h := by cases h
  one _ _ _ h := by cases h
  entry _ _ h := by cases h
  known _ h := by cases h

/-! ## the owner keeps it -/

theorem Owned.Inv.snapshot {o : Owned} (h : o.Inv) :
    o.snapshot.Pairwise (fun a b => a.id < b.id) ∧ o.snapshot.Perm (o.workers.map Prod.snd) := by
  have hperm : o.snapshot.Perm (o.workers.map Prod.snd) := List.perm_insertionSort _ _
  have hids : (o.workers.map Prod.snd).map WorkerInfo.id = o.ids := by
    rw [List.map_map]
    exact List.map_congr_left h.keyed
  have hnodup : (o.snapshot.map WorkerInfo.id).Nodup := by
    rw [(hperm.map WorkerInfo.id).nodup_iff, hids]
    exact h.distinct
  have hsorted : o.snapshot.Pairwise fun a b => a.id ≤ b.id := List.pairwise_insertionSort _ _
  refine ⟨?_, hperm⟩
  exact (hsorted.and (List.pairwise_map.mp hnodup)).imp fun hab => lt_of_le_of_ne hab.1 hab.2

theorem Owned.mem_deregister {o : Owned} {id j : SessionId} :
    j ∈ (o.deregister id).ids ↔ j ∈ o.ids ∧ j ≠ id := by
  constructor
  · intro h
    obtain ⟨e, he, rfl⟩ := List.mem_map.mp h
    obtain ⟨hm, hne⟩ := List.mem_filter.mp he
    exact ⟨List.mem_map_of_mem hm, of_decide_eq_true hne⟩
  · rintro ⟨h, hne⟩
    obtain ⟨e, he, rfl⟩ := List.mem_map.mp h
    exact List.mem_map_of_mem (List.mem_filter.mpr ⟨he, decide_eq_true hne⟩)

theorem Owned.Inv.deregister {o : Owned} (h : o.Inv) (id : SessionId) : (o.deregister id).Inv where
  distinct := h.distinct.sublist (List.filter_sublist.map _)
  minted id' hid := h.minted id' (Owned.mem_deregister.mp hid).1
  keyed e he := h.keyed e (List.mem_filter.mp he).1

theorem Owned.Inv.fresh {o : Owned} (h : o.Inv) : o.nextId ∉ o.ids :=
  fun hm => lt_irrefl _ (h.minted _ hm)

theorem Owned.mem_register {o : Owned} {now : Timestamp} {worker : Announced} {id : SessionId}
    (h : o.Inv) : id ∈ (o.register now worker).ids ↔ id = o.nextId ∨ id ∈ o.ids := by
  have hm : id ∈ (o.deregister o.nextId).ids ↔ id ∈ o.ids ∧ id ≠ o.nextId :=
    Owned.mem_deregister
  show id ∈ o.nextId :: (o.deregister o.nextId).ids ↔ _
  rw [List.mem_cons, hm]
  constructor
  · rintro (rfl | ⟨hi, _⟩)
    · exact Or.inl rfl
    · exact Or.inr hi
  · rintro (rfl | hi)
    · exact Or.inl rfl
    · exact Or.inr ⟨hi, fun he => h.fresh (he ▸ hi)⟩

theorem Owned.Inv.register {o : Owned} (h : o.Inv) (now : Timestamp) (worker : Announced) :
    (o.register now worker).Inv where
  distinct := by
    refine List.nodup_cons.mpr ⟨fun hm => ?_, (h.deregister o.nextId).distinct⟩
    exact (Owned.mem_deregister.mp hm).2 rfl
  minted id hid := by
    rcases (Owned.mem_register h).mp hid with rfl | hi
    · exact Nat.lt_succ_self _
    · exact Nat.lt_succ_of_lt (h.minted id hi)
  keyed e he := by
    rcases List.mem_cons.mp he with rfl | he
    · rfl
    · exact h.keyed e (List.mem_filter.mp he).1

/-! ## one step -/

/-- what a step of one session leaves of it, it leaves of all -/
theorem update_congr {A B : Type} (g : A → B) {f : ι → A} {i : ι} {c : A} (h : g c = g (f i))
    (j : ι) : g (Function.update f i c j) = g (f j) := by
  by_cases hj : j = i
  · subst hj
    rw [Function.update_self, h]
  · rw [Function.update_of_ne hj]

theorem Registry.Inv.resume {s : Registry ι} (h : s.Inv) {i : ι} {c d : Conn} (hi : s.conn i = d)
    (hid : c.id? = d.id?) (hleft : c.left? = d.left?)
    (hreg : c = .registering ↔ d = .registering) :
    Registry.Inv { s with conn := Function.update s.conn i c } := by
  subst hi
  have hids := update_congr Conn.id? hid
  have hlefts := update_congr Conn.left? hleft
  have hregs := update_congr (· = Conn.registering) (propext hreg)
  refine ⟨h.bounded, h.once, fun j => ?_, h.granted, h.leavers, ?_, h.owned, ?_, ?_, ?_, ?_⟩
  · exact (h.waiting j).trans (iff_of_eq (hregs j).symm)
  · intro id hm
    obtain ⟨j, hj⟩ := h.left id hm
    exact ⟨j, (hlefts j).trans hj⟩
  · exact fun j id hj => h.minted j id ((hids j).symm.trans hj)
  · exact fun j k id hj hk => h.one j k id ((hids j).symm.trans hj) ((hids k).symm.trans hk)
  · intro j id hj
    show _ ↔ (Function.update s.conn i c j).left? = none ∨ _
    rw [hlefts j]
    exact h.entry j id ((hids j).symm.trans hj)
  · intro id hm
    obtain ⟨j, hj⟩ := h.known id hm
    exact ⟨j, (hids j).trans hj⟩

/-- a command without effect on sessions is given room, or put in by its sender -/
theorem Registry.Inv.carried {s : Registry ι} (h : s.Inv) {cmds : Chan (RegistryCmd ι) CMD_BUFFER}
    {granted : List (RegistryCmd ι)} (hlen : (cmds.items ++ granted).length ≤ CMD_BUFFER)
    (hclients : ((cmds.items ++ granted).filterMap RegistryCmd.client?).Perm
      (s.coming.filterMap RegistryCmd.client?))
    (hgranted : ∀ id, .deregister id ∉ granted)
    (hleavers : cmds.items.filterMap RegistryCmd.leaver? = s.leavers) :
    Registry.Inv { s with cmds, granted } := by
  refine ⟨hlen, hclients.nodup_iff.mpr h.once, fun i => ?_, hgranted, ?_, ?_, h.owned, h.minted,
    h.one, ?_, h.known⟩
  · rw [← h.waiting i]
    exact hclients.mem_iff
  · show (cmds.items.filterMap RegistryCmd.leaver?).Nodup
    rw [hleavers]
    exact h.leavers
  · show ∀ id ∈ cmds.items.filterMap RegistryCmd.leaver?, _
    rw [hleavers]
    exact h.left
  · intro i id hi
    show _ ↔ _ ∨ id ∈ cmds.items.filterMap RegistryCmd.leaver?
    rw [hleavers]
    exact h.entry i id hi

theorem Registry.Inv.snapshot {s : Registry ι} (h : s.Inv) (r : Nat) (hroom : s.room = true) :
    Registry.Inv { s with granted := s.granted ++ [.snapshot r] } := by
  refine h.carried ?_ (List.Perm.of_eq ?_) ?_ rfl
  · have hlt := of_decide_eq_true hroom
    rw [List.length_append, List.length_append, List.length_singleton]
    omega
  · show (s.cmds.items ++ (s.granted ++ [RegistryCmd.snapshot r])).filterMap _ = _
    rw [← List.append_assoc, List.filterMap_append]
    exact List.append_nil _
  · intro id hm
    rcases List.mem_append.mp hm with hm | hm
    · exact h.granted id hm
    · cases List.mem_singleton.mp hm

theorem Registry.Inv.put {s : Registry ι} (h : s.Inv) {n : Nat} {cmd : RegistryCmd ι}
    {cmds : Chan (RegistryCmd ι) CMD_BUFFER} (hn : s.granted[n]? = some cmd)
    (hs : s.cmds.send cmd = some cmds) :
    Registry.Inv { s with cmds, granted := s.granted.eraseIdx n } := by
  obtain ⟨hlt, rfl⟩ := List.getElem?_eq_some_iff.mp hn
  have hperm : (cmds.items ++ s.granted.eraseIdx n).Perm s.coming := by
    rw [Chan.send_items hs, List.append_assoc]
    exact (List.getElem_cons_eraseIdx_perm hlt).append_left _
  refine h.carried ?_ (hperm.filterMap _) ?_ ?_
  · rw [hperm.length_eq]
    exact h.bounded
  · exact fun id hm => h.granted id (List.mem_of_mem_eraseIdx hm)
  · rw [Chan.send_items hs, List.filterMap_append]
    have hno : RegistryCmd.leaver? s.granted[n] = none := by
      cases hc : s.granted[n] with
      | deregister id => exact absurd (hc ▸ List.getElem_mem hlt) (h.granted id)
      | _ => rfl
    rw [List.filterMap_cons, hno]
    exact List.append_nil _

theorem Registry.Inv.register {s : Registry ι} (h : s.Inv) {i : ι} (worker : Announced)
    (hi : s.conn i = .outside) (hroom : s.room = true) :
    Registry.Inv { s with
      granted := s.granted ++ [.register worker i]
      conn := Function.update s.conn i .registering } := by
  have hclients : (s.cmds.items ++ (s.granted ++ [RegistryCmd.register worker i])).filterMap
      RegistryCmd.client? = s.coming.filterMap RegistryCmd.client? ++ [i] := by
    rw [← List.append_assoc, List.filterMap_append]
    rfl
  have hout : i ∉ s.coming.filterMap RegistryCmd.client? := fun hm => by
    rw [h.waiting i, hi] at hm
    cases hm
  have hids : ∀ j id, (Function.update s.conn i .registering j).id? = some id →
      j ≠ i ∧ (s.conn j).id? = some id := by
    intro j id hj
    by_cases hji : j = i
    · subst hji
      rw [Function.update_self] at hj
      cases hj
    · rw [Function.update_of_ne hji] at hj
      exact ⟨hji, hj⟩
  have hback : ∀ j id, (s.conn j).id? = some id → j ≠ i := by
    rintro j id hj rfl
    rw [hi] at hj
    cases hj
  refine ⟨?_, ?_, fun j => ?_, ?_, h.leavers, ?_, h.owned, ?_, ?_, ?_, ?_⟩
  · have hlt := of_decide_eq_true hroom
    show (s.cmds.items ++ (s.granted ++ [_])).length ≤ CMD_BUFFER
    rw [List.length_append, List.length_append, List.length_singleton]
    omega
  · show (List.filterMap _ (s.cmds.items ++ (s.granted ++ [_]))).Nodup
    rw [hclients]
    exact List.nodup_append'.mpr ⟨h.once, List.nodup_singleton _,
      List.disjoint_singleton.mpr hout⟩
  · show j ∈ List.filterMap _ (s.cmds.items ++ (s.granted ++ [_]))
      ↔ Function.update s.conn i .registering j = .registering
    rw [hclients, List.mem_append, List.mem_singleton, h.waiting j]
    by_cases hj : j = i
    · subst hj
      rw [Function.update_self]
      exact ⟨fun _ => rfl, fun _ => Or.inr rfl⟩
    · rw [Function.update_of_ne hj]
      exact ⟨fun hr => hr.resolve_right hj, Or.inl⟩
  · intro id hm
    rcases List.mem_append.mp hm with hm | hm
    · exact h.granted id hm
    · cases List.mem_singleton.mp hm
  · intro id hm
    obtain ⟨j, hj⟩ := h.left id hm
    refine ⟨j, ?_⟩
    rw [← hj]
    exact congrArg _ (Function.update_of_ne (hback j id (Conn.id_of_left hj)) _ _)
  · exact fun j id hj => h.minted j id (hids j id hj).2
  · exact fun j k id hj hk => h.one j k id (hids j id hj).2 (hids k id hk).2
  · intro j id hj
    obtain ⟨hji, hj'⟩ := hids j id hj
    show _ ↔ (Function.update s.conn i .registering j).left? = none ∨ _
    rw [Function.update_of_ne hji]
    exact h.entry j id hj'
  · intro id hm
    obtain ⟨j, hj⟩ := h.known id hm
    refine ⟨j, ?_⟩
    rw [← hj]
    exact congrArg _ (Function.update_of_ne (hback j id hj) _ _)

theorem Registry.Inv.leave {s : Registry ι} (h : s.Inv) {i : ι} {id : SessionId}
    {cmds : Chan (RegistryCmd ι) CMD_BUFFER} (hi : s.conn i = .guarded id)
    (hroom : s.room = true) (hs : s.cmds.send (.deregister id) = some cmds) :
    Registry.Inv { s with cmds, conn := Function.update s.conn i (.dropped id true) } := by
  have hid : (s.conn i).id? = some id := by rw [hi]; rfl
  have hitems := Chan.send_items hs
  have hleavers : cmds.items.filterMap RegistryCmd.leaver? = s.leavers ++ [id] := by
    rw [hitems, List.filterMap_append]
    rfl
  have hclients : (cmds.items ++ s.granted).filterMap RegistryCmd.client?
      = s.coming.filterMap RegistryCmd.client? := by
    unfold Registry.coming
    rw [hitems, List.filterMap_append, List.filterMap_append, List.filterMap_append]
    exact congrArg (· ++ _) (List.append_nil _)
  have hids : ∀ j, (Function.update s.conn i (.dropped id true) j).id? = (s.conn j).id? :=
    update_congr Conn.id? hid.symm
  have hnew : id ∉ s.leavers := by
    intro hm
    obtain ⟨j, hj⟩ := h.left id hm
    obtain rfl : j = i := h.one j i id (Conn.id_of_left hj) hid
    rw [hi] at hj
    cases hj
  refine ⟨?_, ?_, fun j => ?_, h.granted, ?_, ?_, h.owned, ?_, ?_, ?_, ?_⟩
  · have hlt := of_decide_eq_true hroom
    show (cmds.items ++ s.granted).length ≤ CMD_BUFFER
    rw [hitems, List.length_append, List.length_append, List.length_singleton]
    omega
  · show (List.filterMap _ (cmds.items ++ s.granted)).Nodup
    rw [hclients]
    exact h.once
  · show j ∈ List.filterMap _ (cmds.items ++ s.granted) ↔ Function.update s.conn i _ j = _
    rw [hclients, h.waiting j]
    by_cases hj : j = i
    · subst hj
      rw [Function.update_self, hi]
      exact ⟨fun hc => (by cases hc), fun hc => (by cases hc)⟩
    · rw [Function.update_of_ne hj]
  · show (cmds.items.filterMap _).Nodup
    rw [hleavers]
    exact List.nodup_append'.mpr ⟨h.leavers, List.nodup_singleton _,
      List.disjoint_singleton.mpr hnew⟩
  · intro id' hm
    replace hm : id' ∈ cmds.items.filterMap RegistryCmd.leaver? := hm
    rw [hleavers, List.mem_append, List.mem_singleton] at hm
    rcases hm with hm | rfl
    · obtain ⟨j, hj⟩ := h.left id' hm
      refine ⟨j, ?_⟩
      rw [← hj]
      refine congrArg _ (Function.update_of_ne ?_ _ _)
      rintro rfl
      rw [hi] at hj
      cases hj
    · refine ⟨i, ?_⟩
      show (Function.update s.conn i _ i).left? = _
      rw [Function.update_self]
      rfl
  · exact fun j id' hj => h.minted j id' ((hids j).symm.trans hj)
  · exact fun j k id' hj hk => h.one j k id' ((hids j).symm.trans hj) ((hids k).symm.trans hk)
  · intro j id' hj
    have hj' := (hids j).symm.trans hj
    have he := h.entry j id' hj'
    show _ ↔ (Function.update s.conn i _ j).left? = none ∨
      id' ∈ cmds.items.filterMap RegistryCmd.leaver?
    rw [hleavers, List.mem_append, List.mem_singleton, he]
    by_cases hji : j = i
    · subst hji
      obtain rfl : id = id' := Option.some.inj (hid.symm.trans hj')
      rw [hi]
      exact ⟨fun _ => Or.inr (Or.inr rfl), fun _ => Or.inl rfl⟩
    · rw [Function.update_of_ne hji]
      have hne : id' ≠ id := by
        rintro rfl
        exact hji (h.one j i _ hj' hid)
      exact or_congr_right ⟨Or.inl, fun hr => hr.resolve_right hne⟩
  · intro id' hm
    obtain ⟨j, hj⟩ := h.known id' hm
    exact ⟨j, (hids j).trans hj⟩

/-- the invariant while the owner holds the head of the channel -/
structure Registry.Inv.Head (s : Registry ι) (cmd : RegistryCmd ι)
    (cmds : Chan (RegistryCmd ι) CMD_BUFFER) : Prop where
  bounded : (cmds.items ++ s.granted).length ≤ CMD_BUFFER
  once : ((cmd :: (cmds.items ++ s.granted)).filterMap RegistryCmd.client?).Nodup
  waiting : ∀ i, i ∈ (cmd :: (cmds.items ++ s.granted)).filterMap RegistryCmd.client? ↔
    s.conn i = .registering
  leavers : ((cmd :: cmds.items).filterMap RegistryCmd.leaver?).Nodup
  left : ∀ id ∈ (cmd :: cmds.items).filterMap RegistryCmd.leaver?, ∃ i, (s.conn i).left? = some id
  entry : ∀ i id, (s.conn i).id? = some id → (id ∈ s.owned.ids ↔
    (s.conn i).left? = none ∨ id ∈ (cmd :: cmds.items).filterMap RegistryCmd.leaver?)

theorem Registry.Inv.head {s : Registry ι} (h : s.Inv) {cmd : RegistryCmd ι}
    {cmds : Chan (RegistryCmd ι) CMD_BUFFER} (hr : s.cmds.recv = some (cmd, cmds)) :
    Registry.Inv.Head s cmd cmds := by
  have hitems := Chan.recv_items hr
  have hcoming : s.coming = cmd :: (cmds.items ++ s.granted) := by
    unfold Registry.coming
    rw [hitems]
    rfl
  have hleavers : s.leavers = (cmd :: cmds.items).filterMap RegistryCmd.leaver? := by
    unfold Registry.leavers
    rw [hitems]
  have hb := h.bounded
  rw [hcoming] at hb
  exact ⟨Nat.le_of_succ_le hb, hcoming ▸ h.once, hcoming ▸ h.waiting, hleavers ▸ h.leavers,
    hleavers ▸ h.left, hleavers ▸ h.entry⟩

section
variable {s : Registry ι} {cmds : Chan (RegistryCmd ι) CMD_BUFFER}

theorem Registry.Inv.serve_deregister (h : s.Inv) {id : SessionId}
    (hd : Registry.Inv.Head s (.deregister id) cmds) (now : Timestamp) :
    (ownerServe now { s with cmds } (.deregister id)).Inv := by
  obtain ⟨hid, hleavers'⟩ := List.nodup_cons.mp hd.leavers
  obtain ⟨i, hi⟩ := hd.left id List.mem_cons_self
  refine ⟨hd.bounded, hd.once, hd.waiting, h.granted, hleavers',
    fun id' hm => hd.left id' (List.mem_cons_of_mem _ hm), h.owned.deregister id, h.minted, h.one,
    fun j id' hj => ?_, fun id' hm => h.known id' (Owned.mem_deregister.mp hm).1⟩
  have he := hd.entry j id' hj
  refine Owned.mem_deregister.trans ?_
  rw [he]
  show (_ ∨ id' ∈ id :: _) ∧ _ ↔ _ ∨ id' ∈ _
  constructor
  · rintro ⟨hn | hm, hne⟩
    · exact Or.inl hn
    · exact Or.inr ((List.mem_cons.mp hm).resolve_left hne)
  · rintro (hn | hm)
    · refine ⟨Or.inl hn, ?_⟩
      rintro rfl
      obtain rfl : i = j := h.one i j id' (Conn.id_of_left hi) hj
      replace hn : (s.conn i).left? = none := hn
      rw [hi] at hn
      cases hn
    · refine ⟨Or.inr (List.mem_cons_of_mem _ hm), ?_⟩
      rintro rfl
      exact hid hm

theorem Registry.Inv.serve_register (h : s.Inv) {worker : Announced} {i : ι}
    (hd : Registry.Inv.Head s (.register worker i) cmds) (now : Timestamp) :
    (ownerServe now { s with cmds } (.register worker i)).Inv := by
  obtain ⟨hnew, honce'⟩ := List.nodup_cons.mp hd.once
  have hi : s.conn i = .registering := (hd.waiting i).mp List.mem_cons_self
  have hids : ∀ j id, (Function.update s.conn i (.answered s.owned.nextId) j).id? = some id →
      (j = i ∧ id = s.owned.nextId) ∨ (j ≠ i ∧ (s.conn j).id? = some id) := by
    intro j id hj
    by_cases hji : j = i
    · subst hji
      rw [Function.update_self] at hj
      exact Or.inl ⟨rfl, (Option.some.inj hj).symm⟩
    · rw [Function.update_of_ne hji] at hj
      exact Or.inr ⟨hji, hj⟩
  have hback : ∀ j id, (s.conn j).id? = some id → j ≠ i := by
    rintro j id hj rfl
    rw [hi] at hj
    cases hj
  refine ⟨hd.bounded, honce', fun j => ?_, h.granted, hd.leavers, ?_,
    h.owned.register now worker, ?_, ?_, ?_, ?_⟩
  · have hj := hd.waiting j
    show j ∈ (cmds.items ++ s.granted).filterMap _ ↔ Function.update s.conn i _ j = _
    by_cases hji : j = i
    · subst hji
      rw [Function.update_self]
      exact ⟨fun hm => absurd hm hnew, fun hc => (by cases hc)⟩
    · rw [Function.update_of_ne hji, ← hj]
      exact ⟨List.mem_cons_of_mem _, fun hm => (List.mem_cons.mp hm).resolve_left hji⟩
  · intro id hm
    obtain ⟨j, hj⟩ := hd.left id hm
    refine ⟨j, ?_⟩
    rw [← hj]
    exact congrArg _ (Function.update_of_ne (hback j id (Conn.id_of_left hj)) _ _)
  · intro j id hj
    rcases hids j id hj with ⟨_, rfl⟩ | ⟨_, hj'⟩
    · exact Nat.lt_succ_self _
    · exact Nat.lt_succ_of_lt (h.minted j id hj')
  · intro j k id hj hk
    rcases hids j id hj with ⟨rfl, rfl⟩ | ⟨_, hj'⟩ <;>
      rcases hids k _ hk with ⟨rfl, he⟩ | ⟨_, hk'⟩
    · rfl
    · exact absurd (h.minted k _ hk') (lt_irrefl _)
    · rw [he] at hj'
      exact absurd (h.minted j _ hj') (lt_irrefl _)
    · exact h.one j k id hj' hk'
  · intro j id hj
    show id ∈ (s.owned.register now worker).ids ↔
      (Function.update s.conn i _ j).left? = none ∨ id ∈ cmds.items.filterMap _
    rw [Owned.mem_register h.owned]
    rcases hids j id hj with ⟨rfl, rfl⟩ | ⟨hji, hj'⟩
    · rw [Function.update_self]
      exact ⟨fun _ => Or.inl rfl, fun _ => Or.inl rfl⟩
    · rw [Function.update_of_ne hji]
      have hne : id ≠ s.owned.nextId := Nat.ne_of_lt (h.minted j id hj')
      exact ⟨fun hm => (hd.entry j id hj').mp (hm.resolve_left hne),
        fun hm => Or.inr ((hd.entry j id hj').mpr hm)⟩
  · intro id hm
    rcases (Owned.mem_register h.owned).mp hm with rfl | hm
    · refine ⟨i, ?_⟩
      show (Function.update s.conn i _ i).id? = _
      rw [Function.update_self]
      rfl
    · obtain ⟨j, hj⟩ := h.known id hm
      refine ⟨j, ?_⟩
      rw [← hj]
      exact congrArg _ (Function.update_of_ne (hback j id hj) _ _)

end

theorem Registry.Inv.serve {s : Registry ι} (h : s.Inv) (now : Timestamp) {cmd : RegistryCmd ι}
    {cmds : Chan (RegistryCmd ι) CMD_BUFFER} (hr : s.cmds.recv = some (cmd, cmds)) :
    (ownerServe now { s with cmds } cmd).Inv := by
  have hd := h.head hr
  cases cmd with
  | snapshot r =>
    exact ⟨hd.bounded, hd.once, hd.waiting, h.granted, hd.leavers, hd.left, h.owned, h.minted,
      h.one, hd.entry, h.known⟩
  | deregister id => exact h.serve_deregister hd now
  | register worker i => exact h.serve_register hd now

variable {hello : ι → Announced}

theorem Registry.Inv.stepped {s t : Registry ι} {a : RegistryAct ι} (h : s.Inv)
    (hs : registryStep hello s a = some t) : t.Inv := by
  unfold registryStep at hs
  cases a with
  | register i =>
    dsimp only at hs
    split at hs
    case h_1 hi =>
      obtain ⟨hroom, he⟩ := Option.ite_none_right_eq_some.mp hs
      cases he
      exact h.register (hello i) hi hroom
    case h_2 => cases hs
  | snapshot r =>
    obtain ⟨hroom, he⟩ := Option.ite_none_right_eq_some.mp hs
    cases he
    exact h.snapshot r hroom
  | put n =>
    dsimp only at hs
    split at hs
    case h_1 cmd hn =>
      obtain ⟨cmds, hsend, rfl⟩ := Option.map_eq_some_iff.mp hs
      exact h.put hn hsend
    case h_2 => cases hs
  | serve now =>
    obtain ⟨⟨cmd, cmds⟩, hr, rfl⟩ := Option.map_eq_some_iff.mp hs
    exact h.serve now hr
  | resume i =>
    dsimp only at hs
    split at hs
    case h_1 id hi =>
      cases hs
      exact h.resume hi rfl rfl ⟨fun hc => (by cases hc), fun hc => (by cases hc)⟩
    case h_2 => cases hs
  | drop i =>
    dsimp only at hs
    split at hs
    case h_1 id hi =>
      cases hs
      unfold Registry.dropGuard
      split
      case isTrue hroom =>
        have hlt : s.cmds.items.length < CMD_BUFFER :=
          lt_of_le_of_lt (Nat.le_add_right _ _) (of_decide_eq_true hroom)
        obtain ⟨cmds, hsend⟩ := Option.isSome_iff_exists.mp
          ((Chan.send_isSome (a := .deregister id)).mpr hlt)
        have htry : s.cmds.trySend (.deregister id) = cmds := by
          unfold Chan.trySend
          rw [hsend]
          rfl
        rw [htry]
        exact h.leave hi hroom hsend
      case isFalse =>
        exact h.resume hi rfl rfl ⟨fun hc => (by cases hc), fun hc => (by cases hc)⟩
    case h_2 => cases hs

/-! ## a run, watched -/

/-- the sessions whose guard was dropped when every place of the channel was taken, and the map
at each snapshot that was served -/
structure Watch where
  crowded : List SessionId
  served : List (Nat × List WorkerInfo)

def Watch.start : Watch := ⟨[], []⟩

def Watch.note (s : Registry ι) (a : RegistryAct ι) (w : Watch) : Watch :=
  match a with
  | .drop i =>
    match s.conn i with
    | .guarded id =>
      if s.cmds.items.length + s.granted.length < CMD_BUFFER then w
      else { w with crowded := id :: w.crowded }
    | _ => w
  | .serve _ =>
    match s.cmds.items with
    | .snapshot r :: _ => { w with served := (r, s.owned.workers.map Prod.snd) :: w.served }
    | _ => w
  | _ => w

def watchedSys (hello : ι → Announced) : Sys (Registry ι × Watch) (RegistryAct ι) :=
  (registrySys hello).withHistory Watch.start Watch.note

theorem watched_reachable {s : Registry ι} :
    (registrySys hello).Reachable s ↔ ∃ w, (watchedSys hello).Reachable (s, w) :=
  Sys.withHistory_reachable

/-- the list a request was answered with is the map, sorted -/
def ListsMap (shown served : Nat × List WorkerInfo) : Prop :=
  shown.1 = served.1 ∧ shown.2.Pairwise (fun a b => a.id < b.id) ∧ shown.2.Perm served.2

def Conn.dropped? : Conn → Option (SessionId × Bool)
  | .dropped id sent => some (id, sent)
  | _ => none

/-- **A guard's drop fails only for want of a place.** -/
structure Watch.Inv (s : Registry ι) (w : Watch) : Prop where
  dropped : ∀ i id sent, (s.conn i).dropped? = some (id, sent) → (sent = false ↔ id ∈ w.crowded)
  crowded : ∀ id ∈ w.crowded, ∃ i sent, (s.conn i).dropped? = some (id, sent)
  shown : List.Forall₂ ListsMap s.shown w.served

theorem Conn.id_of_dropped {c : Conn} {id : SessionId} {sent : Bool}
    (h : c.dropped? = some (id, sent)) : c.id? = some id := by
  cases c with
  | dropped id' sent' => cases h; rfl
  | _ => cases h

theorem Watch.Inv.moved {s t : Registry ι} {w : Watch} (hw : w.Inv s)
    (hd : ∀ i, (t.conn i).dropped? = (s.conn i).dropped?) (hsh : t.shown = s.shown) :
    w.Inv t := by
  refine ⟨fun i id sent hi => hw.dropped i id sent ((hd i).symm.trans hi), fun id hid => ?_, ?_⟩
  · obtain ⟨i, sent, hi⟩ := hw.crowded id hid
    exact ⟨i, sent, (hd i).trans hi⟩
  · rw [hsh]
    exact hw.shown

theorem Watch.Inv.drop {s t : Registry ι} {w w' : Watch} {i : ι} {id : SessionId} {sent : Bool}
    (h : s.Inv) (hw : w.Inv s) (hi : s.conn i = .guarded id)
    (hconn : t.conn = Function.update s.conn i (.dropped id sent)) (hsh : t.shown = s.shown)
    (hmem : ∀ id', id' ∈ w'.crowded ↔ (sent = false ∧ id' = id) ∨ id' ∈ w.crowded)
    (hserved : w'.served = w.served) : w'.Inv t := by
  have hid : (s.conn i).id? = some id := by
    rw [hi]
    rfl
  -- no session dropped before has this id
  have hnew : id ∉ w.crowded := by
    intro hm
    obtain ⟨j, sent', hj⟩ := hw.crowded id hm
    obtain rfl : j = i := h.one j i id (Conn.id_of_dropped hj) hid
    rw [hi] at hj
    cases hj
  refine ⟨fun j id' sent' hj => ?_, fun id' hm => ?_, ?_⟩
  · rw [hconn] at hj
    rw [hmem]
    by_cases hji : j = i
    · subst hji
      rw [Function.update_self] at hj
      cases hj
      exact ⟨fun he => Or.inl ⟨he, rfl⟩, fun hm => (hm.resolve_right hnew).1⟩
    · rw [Function.update_of_ne hji] at hj
      have hne : id' ≠ id := by
        rintro rfl
        exact hji (h.one j i id' (Conn.id_of_dropped hj) hid)
      rw [hw.dropped j id' sent' hj]
      exact ⟨Or.inr, fun hm => hm.resolve_left fun he => hne he.2⟩
  · rw [hconn]
    rcases (hmem id').mp hm with ⟨_, rfl⟩ | hm
    · refine ⟨i, sent, ?_⟩
      rw [Function.update_self]
      rfl
    · obtain ⟨j, sent', hj⟩ := hw.crowded id' hm
      have hji : j ≠ i := by
        rintro rfl
        rw [hi] at hj
        cases hj
      refine ⟨j, sent', ?_⟩
      rw [Function.update_of_ne hji]
      exact hj
  · rw [hsh, hserved]
    exact hw.shown

theorem Watch.Inv.serve {s : Registry ι} {w : Watch} (h : s.Inv) (hw : w.Inv s) (now : Timestamp)
    {cmd : RegistryCmd ι} {cmds : Chan (RegistryCmd ι) CMD_BUFFER}
    (hr : s.cmds.recv = some (cmd, cmds)) :
    (Watch.note s (.serve now) w).Inv (ownerServe now { s with cmds } cmd) := by
  have hitems := Chan.recv_items hr
  unfold Watch.note
  dsimp only
  rw [hitems]
  cases cmd with
  | snapshot r =>
    exact ⟨hw.dropped, hw.crowded, .cons ⟨rfl, h.owned.snapshot⟩ hw.shown⟩
  | deregister id => exact hw.moved (fun _ => rfl) rfl
  | register worker i =>
    have hi : s.conn i = .registering := ((h.head hr).waiting i).mp List.mem_cons_self
    refine hw.moved (update_congr Conn.dropped? ?_) rfl
    rw [hi]
    rfl

theorem Watch.Inv.stepped {s t : Registry ι} {w : Watch} {a : RegistryAct ι} (h : s.Inv)
    (hw : w.Inv s) (hs : registryStep hello s a = some t) : (Watch.note s a w).Inv t := by
  unfold registryStep at hs
  cases a with
  | register i =>
    dsimp only at hs
    split at hs
    case h_1 hi =>
      obtain ⟨_, he⟩ := Option.ite_none_right_eq_some.mp hs
      cases he
      refine hw.moved (update_congr Conn.dropped? ?_) rfl
      rw [hi]
      rfl
    case h_2 => cases hs
  | snapshot r =>
    obtain ⟨_, he⟩ := Option.ite_none_right_eq_some.mp hs
    cases he
    exact hw.moved (fun _ => rfl) rfl
  | put n =>
    dsimp only at hs
    split at hs
    case h_1 =>
      obtain ⟨cmds, _, rfl⟩ := Option.map_eq_some_iff.mp hs
      exact hw.moved (fun _ => rfl) rfl
    case h_2 => cases hs
  | serve now =>
    obtain ⟨⟨cmd, cmds⟩, hr, rfl⟩ := Option.map_eq_some_iff.mp hs
    exact hw.serve h now hr
  | resume i =>
    dsimp only at hs
    split at hs
    case h_1 id hi =>
      cases hs
      refine hw.moved (update_congr Conn.dropped? ?_) rfl
      rw [hi]
      rfl
    case h_2 => cases hs
  | drop i =>
    dsimp only at hs
    split at hs
    case h_1 id hi =>
      cases hs
      unfold Watch.note Registry.dropGuard
      dsimp only
      rw [hi]
      dsimp only
      split
      case isTrue hroom =>
        rw [if_pos (of_decide_eq_true hroom)]
        exact hw.drop h hi rfl rfl (fun id' => by simp) rfl
      case isFalse hroom =>
        rw [if_neg fun hlt => hroom (decide_eq_true hlt)]
        exact hw.drop h hi rfl rfl (fun id' => by simp) rfl
    case h_2 => cases hs

theorem watched_inv {p : Registry ι × Watch} (h : (watchedSys hello).Reachable p) :
    p.1.Inv ∧ p.2.Inv p.1 := by
  refine h.rule (I := fun p => p.1.Inv ∧ p.2.Inv p.1) ?_ ?_
  · rintro ⟨s, w⟩ ⟨rfl, rfl⟩
    exact ⟨registry_new, fun _ _ _ hi => (by cases hi), fun _ hm => (by cases hm), .nil⟩
  · intro p a q ⟨hI, hw⟩ hs
    obtain ⟨h1, h2⟩ := Sys.withHistory_step hs
    rw [h2]
    exact ⟨hI.stepped h1, hw.stepped hI h1⟩

/-! ## what the registry shows -/

/-- the sessions with an entry: the live ones, and those whose guard was dropped when every place
of the channel was taken -/
def Conn.Listed (c : Conn) (crowded : List SessionId) (id : SessionId) : Prop :=
  c = .answered id ∨ c = .guarded id ∨ (∃ sent, c = .dropped id sent) ∧ id ∈ crowded

theorem Conn.listed_iff {c : Conn} {crowded : List SessionId} {id : SessionId}
    (hc : ∀ sent, c.dropped? = some (id, sent) → (sent = false ↔ id ∈ crowded)) :
    c.Listed crowded id ↔ c.id? = some id ∧ c.left? = none := by
  unfold Conn.Listed
  cases c with
  | outside => simp [Conn.id?]
  | registering => simp [Conn.id?]
  | answered id' => simp [Conn.id?, Conn.left?]
  | guarded id' => simp [Conn.id?, Conn.left?]
  | dropped id' sent =>
    by_cases he : id' = id
    · subst he
      have hsent := hc sent rfl
      cases sent <;> simp [Conn.id?, Conn.left?, ← hsent]
    · simp [Conn.id?, he]

/-- the map has one entry for each of these sessions, and no other -/
structure Shows (s : Registry ι) (crowded : List SessionId) : Prop where
  distinct : s.owned.ids.Nodup
  listed : ∀ id, id ∈ s.owned.ids ↔ ∃ i, (s.conn i).Listed crowded id
  one : ∀ i j id, (s.conn i).Listed crowded id → (s.conn j).Listed crowded id → i = j

/-- **The registry shows the connected workers**, and those whose guard was dropped without a
free place: whenever every command sent so far was served, the map has one entry for each.  Every
request was answered with the map as it was then, by strictly increasing id. -/
theorem registry_shows {p : Registry ι × Watch} (hr : (watchedSys hello).Reachable p) :
    (p.1.cmds.items = [] → Shows p.1 p.2.crowded) ∧
    (p.1.owned.snapshot.Pairwise (fun a b => a.id < b.id) ∧
      p.1.owned.snapshot.Perm (p.1.owned.workers.map Prod.snd)) ∧
    List.Forall₂ ListsMap p.1.shown p.2.served := by
  obtain ⟨h, hw⟩ := watched_inv hr
  have hlisted : ∀ i id, (p.1.conn i).Listed p.2.crowded id ↔
      (p.1.conn i).id? = some id ∧ (p.1.conn i).left? = none :=
    fun i id => Conn.listed_iff (hw.dropped i id)
  refine ⟨fun hq => ⟨h.owned.distinct, fun id => ?_, fun i j id hi hj => ?_⟩, h.owned.snapshot,
    hw.shown⟩
  · have hnone : p.1.leavers = [] := by
      unfold Registry.leavers
      rw [hq]
      rfl
    constructor
    · intro hm
      obtain ⟨i, hi⟩ := h.known id hm
      have he := (h.entry i id hi).mp hm
      rw [hnone] at he
      exact ⟨i, (hlisted i id).mpr ⟨hi, he.resolve_right List.not_mem_nil⟩⟩
    · rintro ⟨i, hi⟩
      obtain ⟨hid, hleft⟩ := (hlisted i id).mp hi
      exact (h.entry i id hid).mpr (Or.inl hleft)
  · exact h.one i j id ((hlisted i id).mp hi).1 ((hlisted j id).mp hj).1

end

/-! ## a guard dropped while the channel is full -/

def rig : ℕ → Announced := fun _ => ⟨"rig", none, 4⟩

def connect {ι : Type} (i : ι) : List (RegistryAct ι) := [.register i, .put 0, .serve 0, .resume i]

def closeFirst : List (RegistryAct ℕ) :=
  connect 0 ++ connect 1 ++ [.drop 0, .snapshot 5, .put 0, .serve 0, .serve 0]

def afterClose : Registry ℕ × Watch :=
  ((watchedSys rig).exec (Registry.new, Watch.start) closeFirst).getD (Registry.new, Watch.start)

theorem registry_shows_close :
    afterClose.1.owned.ids = [2] ∧ Shows afterClose.1 afterClose.2.crowded ∧
      afterClose.1.shown.map (fun q => (q.1, q.2.map WorkerInfo.id)) = [(5, [2])] := by
  have hr : (watchedSys rig).Reachable afterClose :=
    ⟨(Registry.new, Watch.start), closeFirst, ⟨rfl, rfl⟩, rfl⟩
  exact ⟨rfl, (registry_shows hr).1 rfl, rfl⟩

/-- the handlers fill the channel with requests, the only guard is dropped, and all are served -/
def overrun : List (RegistryAct Unit) :=
  connect () ++ (List.range CMD_BUFFER).flatMap (fun r => [.snapshot r, .put 0]) ++ [.drop ()] ++
    List.replicate CMD_BUFFER (.serve 0)

def afterOverrun : Option (Registry Unit) :=
  (registrySys fun _ => ⟨"rig", none, 4⟩).exec Registry.new overrun

/-- the dropped session keeps its entry -/
theorem ghost_shown : ¬ ∀ (hello : Unit → Announced) (s : Registry Unit),
    (registrySys hello).Reachable s → s.cmds.items = [] → ∀ id ∈ s.owned.ids, ∃ i,
      s.conn i = .answered id ∨ s.conn i = .guarded id := by
  have hrun : (afterOverrun.map fun s => (s.cmds.items, s.owned.ids, s.conn ()))
      = some ([], [1], .dropped 1 false) := by decide +kernel
  obtain ⟨s, hs, he⟩ := Option.map_eq_some_iff.mp hrun
  intro h
  obtain ⟨hitems, hrest⟩ := Prod.mk.inj he
  obtain ⟨hids, hconn⟩ := Prod.mk.inj hrest
  obtain ⟨i, hi⟩ := h _ s ⟨Registry.new, overrun, rfl, hs⟩ hitems 1
    (hids ▸ List.mem_singleton.mpr rfl)
  rw [hconn] at hi
  rcases hi with hi | hi <;> cases hi

end KatagoWs
