import KatagoWs.Engine.CacheFile
import KatagoWs.Engine.Fast
import KatagoWs.Engine.FastSpace
import KatagoWs.Engine.Thorough
import KatagoWs.Lib.Files
import KatagoWs.Lib.Prog
import KatagoWs.Lib.Simulation

/-!
# Starts that share a cache file

Every start of a worker, and every `katago-ws autotune`, goes through `apply`: it looks into the
cache, else it searches and stores what it found.  Several processes may do so on one file, each
at its own pace, and any of them may be killed.

* `startsSys`          the processes, the disk, and a record of what was searched and stored;
* `OwnPid`             no two live processes have one pid, which names their temporary files;
* `Starts.Inv`         then the file is never torn, and what was not there at first was found by a
                       search under its key;
* `launches_measured`  so every engine is launched as given, as an entry of the first file says, or
                       as a search of the same setup measured best, pins kept;
* `Apart`              a store reads the file when no other is about to replace it, and can read it;
* `stores_kept`        then the file is the map of all stores, and a start finds the last result
                       of its key;
* `apply_alone`        a process that nobody interrupts does as `Autotune.apply` and `storeFile`.
-/

namespace KatagoWs
namespace Autotune
open Lib Cache NNRat

/-! ## a start -/

/-- What `apply` is given, on the host it runs on. -/
structure Start (File : Type) where
  host : Host File
  cfg : EngineConfig
  concurrency : Nat
  /-- the tuning fields given in the config file or the environment -/
  explicit : List String
  force : Bool
  /-- two fields have no built-in default -/
  servers_default : "nn_server_threads" ∉ explicit → cfg.nnServerThreads = 0
  batch_default : "nn_max_batch_size" ∉ explicit → cfg.nnMaxBatchSize = 0

/-- What the host decides about a search: how its trials go, the lanes of the GPU, the time
budget, and the clocks at its end. -/
structure Trials where
  measure : Measure
  gpuLanes : Option Nat
  mayContinue : Nat → Bool
  secs : ℚ≥0
  nowUnix : Nat

protected def Candidate.toString (cand : Candidate) : String :=
  let shown := fun (val : Option Nat) => (val.map fun num => toString num).getD "pinned"
  let threads := shown cand.analysisThreads
  let servers := shown cand.servers
  let batch := shown cand.batch
  s!"analysisThreads={threads} servers={servers} batch={batch}"

def Cache.TrialRecord.new (candidate : String) : Outcome → TrialRecord
  | .measured rate => ⟨candidate, "measured", rate, ""⟩
  | .pruned rate => ⟨candidate, "pruned", rate, ""⟩
  | .failed err => ⟨candidate, "failed", 0, err⟩

/-- the cache file: its path without the extension, and the extension with its dot -/
structure CacheName where
  stem : String
  extension : String
  /-- the directory of the file, unless it is a root -/
  parent : Option String
  /-- the path is not one of the temporary ones -/
  beside : ∀ pid : Nat, ".tmp" ++ toString pid ≠ extension

theorem append_cancel {stem a b : String} (h : stem ++ a = stem ++ b) : a = b := by
  have hl := congrArg String.toList h
  rw [String.toList_append, String.toList_append] at hl
  exact String.toList_injective (List.append_cancel_left hl)

theorem toString_inj {p q : Nat} (h : toString p = toString q) : p = q := by
  have hl := congrArg (fun s : String => Nat.ofDigitChars 10 s.toList 0) h
  simp only [Nat.toString_eq_repr, Nat.toList_repr, Nat.ofDigitChars_ten_toDigits] at hl
  exact hl

/-- `path.with_extension("tmp{pid}")` for every process -/
def CacheName.replacing (name : CacheName) : Replacing Nat String where
  target := name.stem ++ name.extension
  own pid := name.stem ++ (".tmp" ++ toString pid)
  apart _ _ h := toString_inj (append_cancel (append_cancel h))
  beside pid h := name.beside pid (append_cancel h)

def CacheName.place (name : CacheName) (pid : Nat) : CachePath :=
  ⟨name.replacing.target, name.parent, name.replacing.own pid⟩

namespace Start
variable {File : Type} (st : Start File)

def pinned : PinSet := PinSet.of st.cfg st.explicit

def games : Nat := max st.concurrency 1

def depth : Nat := st.games * POSITIONS_PER_GAME

def key : CacheKey := CacheKey.build st.host st.cfg st.games st.pinned

theorem key_pinned : st.key.pinned = st.pinned.1.toString := by
  rw [key, CacheKey.build]

theorem key_backend : st.key.backend = st.cfg.backend := by
  rw [key, CacheKey.build]

def skips : Bool :=
  !st.cfg.autotune || !st.cfg.backend.isGpu ||
    tuningKeys.all fun key => (st.pinned.1.get? key).isSome

/-- the search of the configured mode; one trial for each rung, and the end, is enough for the
fast one -/
def search (x : Trials) : Option Report :=
  match st.cfg.autotuneMode with
  | .thorough =>
    some (Thorough.run (Thorough.Space.new st.pinned.1 st.depth st.cfg.backend) x.measure)
  | .fast =>
    let space := Fast.Space.new st.pinned.1 st.depth st.cfg.backend x.gpuLanes
    Fast.run space x.measure x.mayContinue (space.ladder.length + 1)

def entry (x : Trials) (report : Report) (best : Candidate) (rate : ℚ≥0) : CacheEntry where
  key := st.key
  tuned := (tunedKeys st.pinned.1 best).toString
  positionsPerSec := rate
  tuneSecs := x.secs
  tunedAtUnix := x.nowUnix
  trials := report.history.map fun e => .new e.1.toString e.2

def tunedTo (best : Candidate) : EngineConfig :=
  withTuned st.cfg st.explicit (tunedKeys st.pinned.1 best)

end Start

/-! ## the processes -/

/-- where a process is in `store` -/
inductive StoreStage (Raw : Type) where
  | reading
  /-- it has read `file` -/
  | creating (file : Option Raw)
  | writing (json : Raw)
  | swapping
deriving DecidableEq

/-- where a process is in `apply`; at the end the configuration to launch -/
inductive StartStage (Raw : Type) where
  | looking
  | searching
  | storing (best : Candidate) (entry : CacheEntry) (stage : StoreStage Raw)
  | launched (cfg : EngineConfig)

/-- What the host answers: the call goes well, or it fails (a write leaves `content`); the search
times out, or ends. -/
inductive StartAnswer (Raw : Type) where
  | ok
  | fails (content : Option Raw)
  | timedOut
  | searched (x : Trials)

/-- A process, with the pid it has where it runs: processes of two containers may have one pid. -/
structure Process (File Raw : Type) where
  pid : Nat
  start : Start File
  stage : StartStage Raw

/-- The disk and the processes; what every search ended with, and the entries that were put in
place, in order. -/
structure Starts (File Raw : Type) where
  disk : Disk String Raw
  process : Nat → Option (Process File Raw)
  found : List (Start File × Option Candidate)
  stored : List CacheEntry

inductive StartsAct (File Raw : Type) where
  | start (i pid : Nat) (st : Start File)
  | advance (i : Nat) (x : StartAnswer Raw)
  /-- a process ends, or is killed; one killed in a write is one whose write fails first -/
  | stop (i : Nat)

section
variable {File Raw : Type} (decode : Raw → Option (List CacheEntry))
  (encode : List CacheEntry → Except String Raw)

def Start.begins (st : Start File) : StartStage Raw :=
  if st.skips then .launched st.cfg else .looking

def Start.looked (st : Start File) (file : Option Raw) : StartStage Raw :=
  match (lookupFile decode file st.key).filter fun _ => !st.force with
  | some hit => .launched (withTuned st.cfg st.explicit (Overrides.parse hit.tuned))
  | none => .searching

/-- the search has ended in time -/
def Start.ended (st : Start File) (x : Trials) (report : Report) : StartStage Raw :=
  match report.best with
  | none => .launched st.cfg
  | some (best, rate) => .storing best (st.entry x report best rate) .reading

/-- the file is read and the directory is there: its new text, or a failure, which only costs the
entry -/
def Start.created (st : Start File) (best : Candidate) (entry : CacheEntry) (file : Option Raw) :
    StartStage Raw :=
  match encode (store (read decode file) entry) with
  | .ok json => .storing best entry (.writing json)
  | .error _ => .launched (st.tunedTo best)

/-- `apply`, from one answer of the host to the next -/
def Process.step (name : CacheName) (p : Process File Raw) (disk : Disk String Raw)
    (x : StartAnswer Raw) : Option (StartStage Raw × Disk String Raw) :=
  let path := name.replacing.target
  match p.stage, x with
  | .looking, .ok => some (p.start.looked decode (disk path), disk)
  | .looking, .fails _ => some (p.start.looked decode none, disk)
  | .searching, .timedOut => some (.launched p.start.cfg, disk)
  | .searching, .searched x =>
    (p.start.search x).map fun report => (p.start.ended x report, disk)
  | .storing best entry .reading, .ok =>
    some (.storing best entry (.creating (disk path)), disk)
  | .storing best entry .reading, .fails _ => some (.storing best entry (.creating none), disk)
  | .storing best entry (.creating file), .ok =>
    some (p.start.created decode encode best entry file, disk)
  | .storing best _ (.creating _), .fails _ =>
    if name.parent.isSome then some (.launched (p.start.tunedTo best), disk) else none
  | .storing best entry (.writing json), .ok =>
    some (.storing best entry .swapping, name.replacing.write disk p.pid (some json))
  | .storing best _ (.writing _), .fails content =>
    some (.launched (p.start.tunedTo best), name.replacing.write disk p.pid content)
  | .storing best _ .swapping, .ok =>
    (name.replacing.swap disk p.pid).map fun disk => (.launched (p.start.tunedTo best), disk)
  | .storing best _ .swapping, .fails _ => some (.launched (p.start.tunedTo best), disk)
  | _, _ => none

def Process.finds (p : Process File Raw) (next : StartStage Raw) :
    List (Start File × Option Candidate) :=
  match p.stage, next with
  | .searching, .storing best _ _ => [(p.start, some best)]
  | .searching, _ => [(p.start, none)]
  | _, _ => []

def Process.stores (p : Process File Raw) : StartAnswer Raw → List CacheEntry
  | .ok => match p.stage with
    | .storing _ entry .swapping => [entry]
    | _ => []
  | _ => []

def startsStep (name : CacheName) (s : Starts File Raw) :
    StartsAct File Raw → Option (Starts File Raw)
  | .start i pid st =>
    if (s.process i).isNone then
      some { s with process := Function.update s.process i (some ⟨pid, st, st.begins⟩) }
    else none
  | .advance i x => (s.process i).bind fun p =>
    (p.step decode encode name s.disk x).map fun r =>
      { disk := r.2
        process := Function.update s.process i (some { p with stage := r.1 })
        found := s.found ++ p.finds r.1
        stored := s.stored ++ p.stores x }
  | .stop i => some { s with process := Function.update s.process i none }

def startsSys (name : CacheName) (file : Option Raw) :
    Sys (Starts File Raw) (StartsAct File Raw) where
  init s := s.disk name.replacing.target = file ∧ (∀ i, s.process i = none) ∧ s.found = [] ∧
    s.stored = []
  step := startsStep decode encode name

/-- a process is started with a pid that no live one has -/
def OwnPid (s : Starts File Raw) : StartsAct File Raw → Prop
  | .start _ pid _ => ∀ j p, s.process j = some p → p.pid ≠ pid
  | _ => True

/-! ## what a search promises -/

variable {decode encode}

theorem Start.search_produced {st : Start File} {x : Trials} {report : Report}
    (h : st.search x = some report) {best : Candidate} {rate : ℚ≥0}
    (hbest : report.best = some (best, rate)) : Produced st.pinned.1 st.cfg.backend best := by
  unfold Start.search at h
  split at h
  · rw [← Option.some.inj h] at hbest
    exact Thorough.run_produced x.measure hbest
  · exact Fast.run_produced h hbest

theorem Start.search_ends (st : Start File) (x : Trials) : ∃ report, st.search x = some report := by
  unfold Start.search
  split
  · exact ⟨_, rfl⟩
  · have hw := Fast.wellFormed st.pinned.1 st.depth st.cfg.backend x.gpuLanes
    generalize Fast.Space.new st.pinned.1 st.depth st.cfg.backend x.gpuLanes = space at hw
    show ∃ report, Fast.run space x.measure x.mayContinue (space.ladder.length + 1) = some report
    unfold Fast.run
    split
    · exact ⟨_, rfl⟩
    · split
      · exact ⟨_, rfl⟩
      · have hfuel : space.ladder.length
            < space.ladder.length + 1 + (Fast.Walk.start space).log.length := by omega
        have hstart : (Fast.Walk.start space).Ok space x.measure := Fast.Walk.start_ok
        obtain ⟨w, hloop, -⟩ := Fast.loop_ends x.mayContinue hstart
          (Fast.Walk.start_steers hw.prior_in) hfuel
        rw [hloop]
        exact ⟨_, rfl⟩

/-- a search under the key of the entry found it -/
def Genuine (found : List (Start File × Option Candidate)) (e : CacheEntry) : Prop :=
  ∃ st best, (st, some best) ∈ found ∧ e.key = st.key ∧
    e.tuned = (tunedKeys st.pinned.1 best).toString

/-- the two setups have one key, or the first searched thoroughly what the second would fast -/
def Start.Serves (st₀ st : Start File) : Prop :=
  st₀.key = st.key ∨ st₀.key = { st.key with mode := modeName .thorough }

theorem Start.Serves.pinned_eq {st₀ st : Start File} (h : st₀.Serves st) :
    st₀.pinned = st.pinned := by
  refine PinSet.toString_inj ?_
  rw [← st₀.key_pinned, ← st.key_pinned]
  rcases h with hs | hs
  · rw [hs]
  · rw [hs]

theorem Start.Serves.backend_eq {st₀ st : Start File} (h : st₀.Serves st) :
    st₀.cfg.backend = st.cfg.backend := by
  rw [← st₀.key_backend, ← st.key_backend]
  rcases h with hs | hs
  · rw [hs]
  · rw [hs]

/-- an entry that was there at first, or that a search found -/
def Trusted (old : List CacheEntry) (found : List (Start File × Option Candidate))
    (e : CacheEntry) : Prop :=
  e ∈ old ∨ Genuine found e

/-- what a process launches: the configuration as given, the result of a search, or an entry that
was there at first -/
inductive Launched (old : List CacheEntry) (found : List (Start File × Option Candidate))
    (st : Start File) (cfg : EngineConfig) : Prop where
  | skipped (h : st.skips = true) (hc : cfg = st.cfg)
  | unfound (h : (st, none) ∈ found) (hc : cfg = st.cfg)
  | tuned (st₀ : Start File) (best : Candidate) (h : (st₀, some best) ∈ found)
      (hs : st₀.Serves st) (hc : cfg = st.tunedTo best)
  | kept (e : CacheEntry) (h : e ∈ old)
      (hkey : e.key = st.key ∨ e.key = { st.key with mode := modeName .thorough })
      (hc : cfg = withTuned st.cfg st.explicit (Overrides.parse e.tuned))

variable (encode) in
/-- the text of a file all entries of which are trusted -/
def TrustedText (old : List CacheEntry) (found : List (Start File × Option Candidate))
    (raw : Raw) : Prop :=
  ∃ entries, encode entries = .ok raw ∧ ∀ e ∈ entries, Trusted old found e

variable (decode encode) in
/-- what a process in `store` has read, is about to write, or has written to its own file -/
def StoreStage.Ok (old : List CacheEntry) (found : List (Start File × Option Candidate))
    (own : Option Raw) : StoreStage Raw → Prop
  | .reading => True
  | .creating file => ∀ e ∈ read decode file, Trusted old found e
  | .writing json => TrustedText encode old found json
  | .swapping => ∃ json, own = some json ∧ TrustedText encode old found json

variable (decode encode) in
def StartStage.Ok (old : List CacheEntry) (found : List (Start File × Option Candidate))
    (own : Option Raw) (st : Start File) : StartStage Raw → Prop
  | .looking | .searching => True
  | .storing best entry stage => (st, some best) ∈ found ∧ entry.key = st.key ∧
      entry.tuned = (tunedKeys st.pinned.1 best).toString ∧ stage.Ok decode encode old found own
  | .launched cfg => Launched old found st cfg

variable (decode encode) in
structure Starts.Inv (name : CacheName) (file : Option Raw) (s : Starts File Raw) : Prop where
  produced : ∀ st best, (st, some best) ∈ s.found → Produced st.pinned.1 st.cfg.backend best
  whole : s.disk name.replacing.target = file ∨
    ∃ raw, s.disk name.replacing.target = some raw ∧
      TrustedText encode (read decode file) s.found raw
  staged : ∀ i p, s.process i = some p → p.stage.Ok decode encode (read decode file) s.found
    (s.disk (name.replacing.own p.pid)) p.start
  pids : ∀ i j p q, s.process i = some p → s.process j = some q → p.pid = q.pid → i = j

section
variable {old : List CacheEntry} {found found' : List (Start File × Option Candidate)}

theorem Trusted.mono (h : found ⊆ found') {e : CacheEntry} (ht : Trusted old found e) :
    Trusted old found' e := by
  rcases ht with hold | ⟨st, best, hf, hrest⟩
  · exact .inl hold
  · exact .inr ⟨st, best, h hf, hrest⟩

theorem TrustedText.mono (h : found ⊆ found') {raw : Raw}
    (ht : TrustedText encode old found raw) : TrustedText encode old found' raw := by
  obtain ⟨entries, he, hall⟩ := ht
  exact ⟨entries, he, fun e hm => (hall e hm).mono h⟩

theorem Launched.mono (h : found ⊆ found') {st : Start File} {cfg : EngineConfig}
    (hl : Launched old found st cfg) : Launched old found' st cfg := by
  cases hl with
  | skipped hs hc => exact .skipped hs hc
  | unfound hf hc => exact .unfound (h hf) hc
  | tuned st₀ best hf hs hc => exact .tuned st₀ best (h hf) hs hc
  | kept e he hkey hc => exact .kept e he hkey hc

theorem StartStage.Ok.mono (h : found ⊆ found') {own : Option Raw} {st : Start File}
    {stage : StartStage Raw} (hok : stage.Ok decode encode old found own st) :
    stage.Ok decode encode old found' own st := by
  cases stage with
  | looking => exact hok
  | searching => exact hok
  | launched cfg => exact Launched.mono h hok
  | storing best entry stage =>
    obtain ⟨hf, hkey, htuned, hstage⟩ := hok
    refine ⟨h hf, hkey, htuned, ?_⟩
    cases stage with
    | reading => exact hstage
    | creating file => exact fun e he => (hstage e he).mono h
    | writing json => exact TrustedText.mono h hstage
    | swapping =>
      obtain ⟨json, hown, htext⟩ := hstage
      exact ⟨json, hown, htext.mono h⟩

theorem trusted_read (hserde : ReadsBack decode encode) {file cur : Option Raw}
    (h : cur = file ∨
      ∃ raw, cur = some raw ∧ TrustedText encode (read decode file) found raw) :
    ∀ e ∈ read decode cur, Trusted (read decode file) found e := by
  rcases h with rfl | ⟨raw, rfl, entries, he, hall⟩
  · exact fun e he => .inl he
  · have hread : read decode (some raw) = entries := by
      show (decode raw).getD [] = entries
      rw [hserde entries raw he]
      rfl
    rw [hread]
    exact hall

/-- **A genuine entry of a key that serves the setup** gives it the keys its search found. -/
theorem Genuine.recalled {st : Start File} {e : CacheEntry} (h : Genuine found e)
    (hp : ∀ st best, (st, some best) ∈ found → Produced st.pinned.1 st.cfg.backend best)
    (hkey : e.key = st.key ∨ e.key = { st.key with mode := modeName .thorough }) :
    ∃ st₀ best, (st₀, some best) ∈ found ∧ st₀.Serves st ∧
      Overrides.parse e.tuned = tunedKeys st.pinned.1 best := by
  obtain ⟨st₀, best, hf, hk, htuned⟩ := h
  have hserves : st₀.Serves st := by
    rw [hk] at hkey
    exact hkey
  have hpins : st₀.pinned = st.pinned := hserves.pinned_eq
  have hplain : ∀ x ∈ (tunedKeys st₀.pinned.1 best).entries, Overrides.Plain x :=
    fun x hx => (tunedKeys_tune (hp st₀ best hf).fits x hx).plain
  refine ⟨st₀, best, hf, hserves, ?_⟩
  rw [htuned, Overrides.parse_toString hplain, hpins]

theorem looked_ok {st : Start File} {file : Option Raw}
    (hp : ∀ st best, (st, some best) ∈ found → Produced st.pinned.1 st.cfg.backend best)
    (hfile : ∀ e ∈ read decode file, Trusted old found e) (own : Option Raw) :
    (st.looked decode file).Ok decode encode old found own st := by
  unfold Start.looked
  split
  · next hit hhit =>
    obtain ⟨hmem, hkey⟩ := lookup_key (Option.filter_eq_some_iff.mp hhit).1
    rcases hfile hit hmem with hold | hgenuine
    · exact .kept hit hold hkey rfl
    · obtain ⟨st₀, best, hf, hs, hparse⟩ := hgenuine.recalled hp hkey
      refine .tuned st₀ best hf hs ?_
      rw [hparse]
      rfl
  · trivial

/-! ## one step -/

/-- **What one step of a process does to the disk**: it writes its own file, or puts that in
place, which is the end of its store. -/
theorem Process.step_disk {name : CacheName} {p : Process File Raw}
    {disk disk' : Disk String Raw} {x : StartAnswer Raw} {next : StartStage Raw}
    (h : p.step decode encode name disk x = some (next, disk')) :
    (∀ j, j ≠ p.pid → disk' (name.replacing.own j) = disk (name.replacing.own j)) ∧
    (p.stores x = [] ∧ disk' name.replacing.target = disk name.replacing.target ∨
      ∃ best entry, p.stage = .storing best entry .swapping ∧ p.stores x = [entry] ∧
        next = .launched (p.start.tunedTo best) ∧
        disk' name.replacing.target = disk (name.replacing.own p.pid)) := by
  obtain ⟨pid, st, stage⟩ := p
  unfold Process.step at h
  dsimp only at h
  split at h
  case h_9 =>
    cases h
    exact ⟨fun j hj => Replacing.write_other hj _, .inl ⟨rfl, Replacing.write_target _⟩⟩
  case h_10 =>
    cases h
    exact ⟨fun j hj => Replacing.write_other hj _, .inl ⟨rfl, Replacing.write_target _⟩⟩
  case h_11 best entry =>
    obtain ⟨d, hd, he⟩ := Option.map_eq_some_iff.mp h
    cases he
    obtain ⟨raw, hown, htarget, hothers⟩ := Replacing.swap_some hd
    exact ⟨hothers, .inr ⟨best, entry, rfl, rfl, rfl, htarget.trans hown.symm⟩⟩
  case h_4 =>
    obtain ⟨_, _, he⟩ := Option.map_eq_some_iff.mp h
    cases he
    exact ⟨fun _ _ => rfl, .inl ⟨rfl, rfl⟩⟩
  case h_8 =>
    obtain ⟨_, he⟩ := Option.ite_none_right_eq_some.mp h
    cases he
    exact ⟨fun _ _ => rfl, .inl ⟨rfl, rfl⟩⟩
  case h_13 => cases h
  all_goals
    cases h
    exact ⟨fun _ _ => rfl, .inl ⟨rfl, rfl⟩⟩

variable {name : CacheName} {file : Option Raw}

/-- **One step of a process**: what it knows stays true. -/
theorem Process.step_ok (hserde : ReadsBack decode encode) {p : Process File Raw}
    {disk disk' : Disk String Raw} {x : StartAnswer Raw} {next : StartStage Raw}
    (hp : ∀ st best, (st, some best) ∈ found → Produced st.pinned.1 st.cfg.backend best)
    (hwhole : disk name.replacing.target = file ∨
      ∃ raw, disk name.replacing.target = some raw ∧
        TrustedText encode (read decode file) found raw)
    (hok : p.stage.Ok decode encode (read decode file) found
      (disk (name.replacing.own p.pid)) p.start)
    (h : p.step decode encode name disk x = some (next, disk')) :
    next.Ok decode encode (read decode file) (found ++ p.finds next)
      (disk' (name.replacing.own p.pid)) p.start := by
  obtain ⟨pid, st, stage⟩ := p
  have hread := trusted_read hserde hwhole
  have hmono : found ⊆ found ++ (Process.mk pid st stage).finds next :=
    List.subset_append_left _ _
  have hnone : ∀ e ∈ read decode (none : Option Raw), Trusted (read decode file) found e :=
    fun e he => absurd he List.not_mem_nil
  have htuned : ∀ best entry stage',
      StartStage.Ok decode encode (read decode file) found (disk (name.replacing.own pid)) st
        (.storing best entry stage') →
      Launched (read decode file) found st (st.tunedTo best) :=
    fun best entry stage' ho => .tuned st best ho.1 (.inl rfl) rfl
  cases stage with
  | looking =>
    cases x with
    | ok =>
      cases h
      exact (looked_ok hp hread _).mono hmono
    | fails content =>
      cases h
      exact (looked_ok hp hnone _).mono hmono
    | timedOut => cases h
    | searched x => cases h
  | searching =>
    cases x with
    | ok => cases h
    | fails content => cases h
    | timedOut =>
      cases h
      exact .unfound (List.mem_append_right _ (List.mem_singleton.mpr rfl)) rfl
    | searched x =>
      obtain ⟨report, hsearch, he⟩ := Option.map_eq_some_iff.mp h
      cases he
      unfold Start.ended
      split
      · exact .unfound (List.mem_append_right _ (List.mem_singleton.mpr rfl)) rfl
      · next best rate hbest =>
        exact ⟨List.mem_append_right _ (List.mem_singleton.mpr rfl), rfl, rfl, trivial⟩
  | launched cfg => cases x <;> cases h
  | storing best entry stage =>
    have hl := (htuned best entry stage hok).mono hmono
    obtain ⟨hf, hkey, hkeys, hstage⟩ := hok
    have hgenuine : Trusted (read decode file) found entry := .inr ⟨st, best, hf, hkey, hkeys⟩
    cases stage with
    | reading =>
      cases x with
      | ok =>
        cases h
        exact ⟨hmono hf, hkey, hkeys, fun e he => (hread e he).mono hmono⟩
      | fails content =>
        cases h
        exact ⟨hmono hf, hkey, hkeys, fun e he => (hnone e he).mono hmono⟩
      | timedOut => cases h
      | searched x => cases h
    | creating file =>
      cases x with
      | ok =>
        cases h
        unfold Start.created at hl hmono ⊢
        split
        · next json hjson =>
          refine ⟨hmono hf, hkey, hkeys, store (read decode file) entry, hjson, fun e he => ?_⟩
          rcases List.mem_append.mp he with hold | hnew
          · exact (hstage e (List.mem_filter.mp hold).1).mono hmono
          · rw [List.mem_singleton.mp hnew]
            exact hgenuine.mono hmono
        · exact hl
      | fails content =>
        obtain ⟨-, he⟩ := Option.ite_none_right_eq_some.mp h
        cases he
        exact hl
      | timedOut => cases h
      | searched x => cases h
    | writing json =>
      cases x with
      | ok =>
        cases h
        exact ⟨hmono hf, hkey, hkeys, json, Replacing.write_own _, TrustedText.mono hmono hstage⟩
      | fails content =>
        cases h
        exact hl
      | timedOut => cases h
      | searched x => cases h
    | swapping =>
      cases x with
      | ok =>
        obtain ⟨d, -, he⟩ := Option.map_eq_some_iff.mp h
        cases he
        exact hl
      | fails content =>
        cases h
        exact hl
      | timedOut => cases h
      | searched x => cases h

end

/-! ## any interleaving -/

variable {name : CacheName} {file : Option Raw}

theorem Process.finds_produced {p : Process File Raw} {disk disk' : Disk String Raw}
    {x : StartAnswer Raw} {next : StartStage Raw}
    (h : p.step decode encode name disk x = some (next, disk')) :
    ∀ st best, (st, some best) ∈ p.finds next → Produced st.pinned.1 st.cfg.backend best := by
  intro st best hm
  unfold Process.finds at hm
  split at hm
  · next best' entry stage' hstage =>
    obtain ⟨rfl, rfl⟩ : st = p.start ∧ best = best' := by
      simpa using List.mem_singleton.mp hm
    unfold Process.step at h
    rw [hstage] at h
    cases x with
    | ok => cases h
    | fails content => cases h
    | timedOut => cases h
    | searched x =>
      obtain ⟨report, hsearch, he⟩ := Option.map_eq_some_iff.mp h
      cases hbest : report.best with
      | none =>
        unfold Start.ended at he
        rw [hbest] at he
        cases he
      | some b =>
        unfold Start.ended at he
        rw [hbest] at he
        cases he
        exact Start.search_produced hsearch hbest
  · exact absurd (congrArg Prod.snd (List.mem_singleton.mp hm)) (by simp)
  · exact absurd hm List.not_mem_nil

theorem begins_ok {old : List CacheEntry} {found : List (Start File × Option Candidate)}
    (own : Option Raw) (st : Start File) : st.begins.Ok decode encode old found own st := by
  unfold Start.begins
  split
  · next h => exact .skipped h rfl
  · trivial

theorem Starts.Inv.stepped (hserde : ReadsBack decode encode) {s t : Starts File Raw}
    (hI : s.Inv decode encode name file) {a : StartsAct File Raw} (ha : OwnPid s a)
    (h : startsStep decode encode name s a = some t) : t.Inv decode encode name file := by
  cases a with
  | start i pid st =>
    obtain ⟨_, he⟩ := Option.ite_none_right_eq_some.mp h
    cases he
    refine ⟨hI.produced, hI.whole, fun j p hj => ?_, fun j k p q hj hk heq => ?_⟩
    · rcases Pool.update_eq_some hj with ⟨rfl, he⟩ | ⟨-, hold⟩
      · cases he
        exact begins_ok _ st
      · exact hI.staged j p hold
    · rcases Pool.update_eq_some hj with ⟨rfl, he⟩ | ⟨-, hjold⟩
      · rcases Pool.update_eq_some hk with ⟨rfl, -⟩ | ⟨-, hkold⟩
        · rfl
        · cases he
          exact absurd heq.symm (ha k q hkold)
      · rcases Pool.update_eq_some hk with ⟨rfl, he⟩ | ⟨-, hkold⟩
        · cases he
          exact absurd heq (ha j p hjold)
        · exact hI.pids j k p q hjold hkold heq
  | stop i =>
    cases h
    refine ⟨hI.produced, hI.whole, fun j p hj => ?_, fun j k p q hj hk => ?_⟩
    · rcases Pool.update_eq_some hj with ⟨-, he⟩ | ⟨-, hold⟩
      · cases he
      · exact hI.staged j p hold
    · rcases Pool.update_eq_some hj with ⟨-, he⟩ | ⟨-, hjold⟩
      · cases he
      · rcases Pool.update_eq_some hk with ⟨-, he⟩ | ⟨-, hkold⟩
        · cases he
        · exact hI.pids j k p q hjold hkold
  | advance i x =>
    obtain ⟨p, hp, h⟩ := Option.bind_eq_some_iff.mp h
    obtain ⟨⟨next, disk'⟩, hstep, rfl⟩ := Option.map_eq_some_iff.mp h
    have hmono : s.found ⊆ s.found ++ p.finds next := List.subset_append_left _ _
    obtain ⟨hothers, htarget⟩ := Process.step_disk hstep
    refine ⟨fun st best hm => ?_, ?_, fun j q hj => ?_, fun j k q r hj hk heq => ?_⟩
    · rcases List.mem_append.mp hm with hold | hnew
      · exact hI.produced st best hold
      · exact Process.finds_produced hstep st best hnew
    · rcases htarget with ⟨-, hsame⟩ | ⟨best, entry, hstage, -, -, hown⟩
      · rcases hI.whole with hw | ⟨raw, hraw, htext⟩
        · exact .inl (hsame.trans hw)
        · exact .inr ⟨raw, hsame.trans hraw, htext.mono hmono⟩
      · have hok := hI.staged i p hp
        rw [hstage] at hok
        obtain ⟨json, hjson, htext⟩ := hok.2.2.2
        exact .inr ⟨json, hown.trans hjson, htext.mono hmono⟩
    · rcases Pool.update_eq_some hj with ⟨rfl, he⟩ | ⟨hne, hold⟩
      · cases he
        exact Process.step_ok hserde hI.produced hI.whole (hI.staged j p hp) hstep
      · -- the file of another process is another file
        have hpid : q.pid ≠ p.pid := fun heq => hne (hI.pids j i q p hold hp heq)
        show q.stage.Ok decode encode _ _ (disk' _) q.start
        rw [hothers q.pid hpid]
        exact (hI.staged j q hold).mono hmono
    · rcases Pool.update_eq_some hj with ⟨rfl, he⟩ | ⟨-, hjold⟩
      · cases he
        rcases Pool.update_eq_some hk with ⟨rfl, -⟩ | ⟨-, hkold⟩
        · rfl
        · exact hI.pids j k p r hp hkold heq
      · rcases Pool.update_eq_some hk with ⟨rfl, he⟩ | ⟨-, hkold⟩
        · cases he
          exact hI.pids j k q p hjold hp heq
        · exact hI.pids j k q r hjold hkold heq

theorem starts_run (hserde : ReadsBack decode encode) {s : Starts File Raw}
    (h : (startsSys decode encode name file).ReachableIf OwnPid s) :
    s.Inv decode encode name file := by
  refine h.rule ?_ fun s a t hI ha hs => hI.stepped hserde ha hs
  rintro s ⟨hdisk, hidle, hfound, -⟩
  refine ⟨fun st best hm => ?_, .inl hdisk, fun i p hp => ?_, fun i j p q hp => ?_⟩
  · rw [hfound] at hm
    exact absurd hm List.not_mem_nil
  · rw [hidle i] at hp
    cases hp
  · rw [hidle i] at hp
    cases hp

/-- **Launched as a search of the setup found best**, as given, or as an entry of the first file
says: with the pins kept but in the last case, and the settings a trial of that candidate runs
with. -/
theorem launches_measured (hserde : ReadsBack decode encode) {s : Starts File Raw}
    (h : (startsSys decode encode name file).ReachableIf OwnPid s) :
    (s.disk name.replacing.target = file ∨ ∃ raw entries,
      s.disk name.replacing.target = some raw ∧ decode raw = some entries ∧
        ∀ e ∈ entries, e ∈ read decode file ∨ Genuine s.found e) ∧
    ∀ i pid st cfg, s.process i = some ⟨pid, st, .launched cfg⟩ →
      (∃ e ∈ read decode file,
        (e.key = st.key ∨ e.key = { st.key with mode := modeName .thorough }) ∧
          cfg = withTuned st.cfg st.explicit (Overrides.parse e.tuned)) ∨
      Keeps st.cfg st.explicit cfg ∧
      (cfg = st.cfg ∧ (st.skips = true ∨ (st, none) ∈ s.found) ∨
        ∃ st₀ best, (st₀, some best) ∈ s.found ∧ st₀.Serves st ∧
          Produced st.pinned.1 st.cfg.backend best ∧
          ∀ key, settings cfg.katagoOverrides key = settings
            (launchCfg st.cfg (trialOverrides st.pinned.1 best)).katagoOverrides key) := by
  have hI := starts_run hserde h
  constructor
  · rcases hI.whole with hw | ⟨raw, hraw, entries, he, hall⟩
    · exact .inl hw
    · exact .inr ⟨raw, entries, hraw, hserde entries raw he, hall⟩
  · intro i pid st cfg hp
    have hl : Launched (read decode file) s.found st cfg := hI.staged i _ hp
    cases hl with
    | kept e he hkey hc => exact .inl ⟨e, he, hkey, hc⟩
    | skipped hs hc =>
      rw [hc]
      exact .inr ⟨given_keeps _ _, .inl ⟨rfl, .inl hs⟩⟩
    | unfound hf hc =>
      rw [hc]
      exact .inr ⟨given_keeps _ _, .inl ⟨rfl, .inr hf⟩⟩
    | tuned st₀ best hf hs hc =>
      have hpins : st₀.pinned = st.pinned := hs.pinned_eq
      have hback : st₀.cfg.backend = st.cfg.backend := hs.backend_eq
      have hprod : Produced st.pinned.1 st.cfg.backend best := by
        rw [← hpins, ← hback]
        exact hI.produced st₀ best hf
      have hmeasured := settings_withTuned_eq st.servers_default st.batch_default hprod.fits
      refine .inr ⟨fun key value hpin => ?_, .inr ⟨st₀, best, hf, hs, hprod, ?_⟩⟩
      · rw [hc]
        exact (hmeasured key).trans (launchCfg_keeps hprod.fits key value hpin)
      · rw [hc]
        exact hmeasured

/-! ## stores that do not overlap -/

/-- between the read and the rename of a store -/
def StartStage.replaces : StartStage Raw → Bool
  | .storing _ _ .reading => false
  | .storing _ _ _ => true
  | _ => false

/-- a store reads the file while no other process is about to replace it, and can read it -/
def Apart (s : Starts File Raw) : StartsAct File Raw → Prop
  | .advance i x => ∀ pid st best entry,
    s.process i = some ⟨pid, st, .storing best entry .reading⟩ →
      x = .ok ∧ ∀ j p, s.process j = some p → p.stage.replaces = false
  | _ => True

variable (decode encode) in
/-- what a process is about to put in place is the current file with its entry renewed -/
def StartStage.Fresh (cur own : Option Raw) : StartStage Raw → Prop
  | .storing _ _ (.creating file) => file = cur
  | .storing _ entry (.writing json) => encode (store (read decode cur) entry) = .ok json
  | .storing _ entry .swapping => ∃ json, own = some json ∧
      encode (store (read decode cur) entry) = .ok json
  | _ => True

variable (decode encode) in
structure Starts.Kept (name : CacheName) (file : Option Raw) (s : Starts File Raw) : Prop where
  entries : read decode (s.disk name.replacing.target)
    = s.stored.foldl (renew CacheEntry.key) (read decode file)
  fresh : ∀ i p, s.process i = some p →
    p.stage.Fresh decode encode (s.disk name.replacing.target) (s.disk (name.replacing.own p.pid))
  one : ∀ i j p q, s.process i = some p → s.process j = some q → p.stage.replaces = true →
    q.stage.replaces = true → i = j

theorem StartStage.Fresh.of_idle {cur own : Option Raw} {stage : StartStage Raw}
    (h : stage.replaces = false) : stage.Fresh decode encode cur own := by
  cases stage with
  | storing best entry stage =>
    cases stage with
    | reading => trivial
    | creating file => cases h
    | writing json => cases h
    | swapping => cases h
  | _ => trivial

/-- a process that has not read the file yet reads it next, or is not in `store` -/
theorem Process.step_replaces {p : Process File Raw} {disk disk' : Disk String Raw}
    {x : StartAnswer Raw} {next : StartStage Raw}
    (h : p.step decode encode name disk x = some (next, disk')) (hnext : next.replaces = true) :
    p.stage.replaces = true ∨ ∃ best entry, p.stage = .storing best entry .reading := by
  obtain ⟨pid, st, stage⟩ := p
  cases stage with
  | storing best entry stage =>
    cases stage with
    | reading => exact .inr ⟨best, entry, rfl⟩
    | creating file => exact .inl rfl
    | writing json => exact .inl rfl
    | swapping => exact .inl rfl
  | looking =>
    have hlooked : ∀ file, (st.looked decode file).replaces = false := by
      intro file
      unfold Start.looked
      split <;> rfl
    cases x with
    | ok =>
      cases h
      rw [hlooked] at hnext
      cases hnext
    | fails content =>
      cases h
      rw [hlooked] at hnext
      cases hnext
    | timedOut => cases h
    | searched x => cases h
  | searching =>
    cases x with
    | ok => cases h
    | fails content => cases h
    | timedOut =>
      cases h
      cases hnext
    | searched x =>
      obtain ⟨report, _, he⟩ := Option.map_eq_some_iff.mp h
      cases he
      unfold Start.ended at hnext
      split at hnext <;> cases hnext
  | launched cfg => cases x <;> cases h

theorem Process.step_idle {p : Process File Raw} {disk disk' : Disk String Raw}
    {x : StartAnswer Raw} {next : StartStage Raw} (hidle : p.stage.replaces = false)
    (h : p.step decode encode name disk x = some (next, disk')) : disk' = disk := by
  obtain ⟨pid, st, stage⟩ := p
  cases stage with
  | looking =>
    cases x with
    | ok => cases h; rfl
    | fails content => cases h; rfl
    | timedOut => cases h
    | searched x => cases h
  | searching =>
    cases x with
    | ok => cases h
    | fails content => cases h
    | timedOut => cases h; rfl
    | searched x =>
      obtain ⟨_, _, he⟩ := Option.map_eq_some_iff.mp h
      cases he
      rfl
  | launched cfg => cases x <;> cases h
  | storing best entry stage =>
    cases stage with
    | reading =>
      cases x with
      | ok => cases h; rfl
      | fails content => cases h; rfl
      | timedOut => cases h
      | searched x => cases h
    | creating file => cases hidle
    | writing json => cases hidle
    | swapping => cases hidle

/-- **One step of a process** whose stores read the file as it is. -/
theorem Process.step_fresh {p : Process File Raw} {disk disk' : Disk String Raw}
    {x : StartAnswer Raw} {next : StartStage Raw}
    (hf : p.stage.Fresh decode encode (disk name.replacing.target)
      (disk (name.replacing.own p.pid)))
    (hx : ∀ best entry, p.stage = .storing best entry .reading → x = .ok)
    (h : p.step decode encode name disk x = some (next, disk')) :
    next.Fresh decode encode (disk' name.replacing.target)
      (disk' (name.replacing.own p.pid)) := by
  by_cases hnext : next.replaces = true
  · obtain ⟨pid, st, stage⟩ := p
    rcases Process.step_replaces h hnext with hrep | ⟨best, entry, hstage⟩
    · cases stage with
      | storing best entry stage =>
        cases stage with
        | reading => cases hrep
        | creating cur =>
          cases x with
          | ok =>
            cases h
            have hcur : cur = disk name.replacing.target := hf
            unfold Start.created at hnext ⊢
            split
            · next json hjson =>
              rw [hcur] at hjson
              exact hjson
            · trivial
          | fails content =>
            obtain ⟨_, he⟩ := Option.ite_none_right_eq_some.mp h
            cases he
            trivial
          | timedOut => cases h
          | searched x => cases h
        | writing json =>
          cases x with
          | ok =>
            cases h
            refine ⟨json, Replacing.write_own _, ?_⟩
            rw [Replacing.write_target]
            exact hf
          | fails content =>
            cases h
            trivial
          | timedOut => cases h
          | searched x => cases h
        | swapping =>
          cases x with
          | ok =>
            obtain ⟨d, _, he⟩ := Option.map_eq_some_iff.mp h
            cases he
            trivial
          | fails content =>
            cases h
            trivial
          | timedOut => cases h
          | searched x => cases h
      | looking => cases hrep
      | searching => cases hrep
      | launched cfg => cases hrep
    · have hok := hx best entry hstage
      obtain rfl : stage = .storing best entry .reading := hstage
      subst hok
      cases h
      rfl
  · exact .of_idle (Bool.eq_false_of_not_eq_true hnext)

theorem Starts.Kept.stepped (hserde : ReadsBack decode encode) {s t : Starts File Raw}
    (hK : s.Kept decode encode name file) {a : StartsAct File Raw} (ha : Apart s a)
    (h : startsStep decode encode name s a = some t) : t.Kept decode encode name file := by
  cases a with
  | start i pid st =>
    obtain ⟨_, he⟩ := Option.ite_none_right_eq_some.mp h
    cases he
    have hidle : (st.begins : StartStage Raw).replaces = false := by
      unfold Start.begins
      split <;> rfl
    refine ⟨hK.entries, fun j p hj => ?_, fun i j p q hi hj hp hq => ?_⟩
    · rcases Pool.update_eq_some hj with ⟨rfl, he⟩ | ⟨-, hold⟩
      · cases he
        exact .of_idle hidle
      · exact hK.fresh j p hold
    · rcases Pool.update_eq_some hi with ⟨-, he⟩ | ⟨-, hiold⟩
      · cases he
        exact absurd hp (by rw [hidle]; exact Bool.false_ne_true)
      · rcases Pool.update_eq_some hj with ⟨-, he⟩ | ⟨-, hjold⟩
        · cases he
          exact absurd hq (by rw [hidle]; exact Bool.false_ne_true)
        · exact hK.one i j p q hiold hjold hp hq
  | stop i =>
    cases h
    refine ⟨hK.entries, fun j p hj => ?_, fun i j p q hi hj hp hq => ?_⟩
    · rcases Pool.update_eq_some hj with ⟨-, he⟩ | ⟨-, hold⟩
      · cases he
      · exact hK.fresh j p hold
    · rcases Pool.update_eq_some hi with ⟨-, he⟩ | ⟨-, hiold⟩
      · cases he
      · rcases Pool.update_eq_some hj with ⟨-, he⟩ | ⟨-, hjold⟩
        · cases he
        · exact hK.one i j p q hiold hjold hp hq
  | advance k x =>
    obtain ⟨p, hp, h⟩ := Option.bind_eq_some_iff.mp h
    obtain ⟨⟨next, disk'⟩, hstep, rfl⟩ := Option.map_eq_some_iff.mp h
    have hread : ∀ best entry, p.stage = .storing best entry .reading →
        x = .ok ∧ ∀ j q, s.process j = some q → q.stage.replaces = false :=
      fun best entry hstage => ha p.pid p.start best entry (hstage ▸ hp)
    have hfresh := Process.step_fresh (hK.fresh k p hp)
      (fun best entry hstage => (hread best entry hstage).1) hstep
    obtain ⟨-, hdisk⟩ := Process.step_disk hstep
    have hone : ∀ j q, j ≠ k → s.process j = some q → next.replaces = true →
        q.stage.replaces = false := by
      intro j q hj hq hnext
      rcases Process.step_replaces hstep hnext with hrep | ⟨best, entry, hstage⟩
      · exact Bool.eq_false_of_not_eq_true fun hq' => hj (hK.one j k q p hq hp hq' hrep)
      · exact (hread best entry hstage).2 j q hq
    refine ⟨?_, fun j q hj => ?_, fun i j q r hi hj hq hr => ?_⟩
    · show read decode (disk' _) = (s.stored ++ p.stores x).foldl _ _
      rw [List.foldl_append, ← hK.entries]
      rcases hdisk with ⟨hnone, hsame⟩ | ⟨best, entry, hstage, hentry, -, hown⟩
      · rw [hnone, hsame]
        rfl
      · have hf := hK.fresh k p hp
        rw [hstage] at hf
        obtain ⟨json, hjson, he⟩ := hf
        rw [hentry, hown, hjson]
        show (decode json).getD [] = _
        rw [hserde _ _ he]
        rfl
    · rcases Pool.update_eq_some hj with ⟨rfl, he⟩ | ⟨hne, hold⟩
      · cases he
        exact hfresh
      · show q.stage.Fresh decode encode (disk' _) (disk' _)
        cases hq : q.stage.replaces with
        | false => exact .of_idle hq
        | true =>
          -- no other process is about to replace the file
          have hidle : p.stage.replaces = false :=
            Bool.eq_false_of_not_eq_true fun hp' => hne (hK.one j k q p hold hp hq hp')
          rw [Process.step_idle hidle hstep]
          exact hK.fresh j q hold
    · rcases Pool.update_eq_some hi with ⟨rfl, he⟩ | ⟨hine, hiold⟩
      · cases he
        rcases Pool.update_eq_some hj with ⟨rfl, -⟩ | ⟨hjne, hjold⟩
        · rfl
        · rw [hone j r hjne hjold hq] at hr
          cases hr
      · rcases Pool.update_eq_some hj with ⟨rfl, he⟩ | ⟨hjne, hjold⟩
        · cases he
          rw [hone i q hine hiold hr] at hq
          cases hq
        · exact hK.one i j q r hiold hjold hq hr

theorem stores_run (hserde : ReadsBack decode encode) {s : Starts File Raw}
    (h : (startsSys decode encode name file).ReachableIf Apart s) :
    s.Kept decode encode name file := by
  refine h.rule ?_ fun s a t hK ha hs => hK.stepped hserde ha hs
  rintro s ⟨hdisk, hidle, -, hstored⟩
  refine ⟨?_, fun i p hp => ?_, fun i j p q hi => ?_⟩
  · rw [hdisk, hstored]
    rfl
  · rw [hidle i] at hp
    cases hp
  · rw [hidle i] at hi
    cases hi

theorem apply_skips {st : Start File} (h : st.skips = true) (hit : Option String)
    (search : Option (Option Candidate)) :
    apply st.cfg st.explicit st.force hit search = { config := st.cfg } := by
  simp only [apply]
  split_ifs with h1 h2 h3
  · rfl
  · rfl
  · rfl
  · refine absurd h ?_
    simp only [Bool.not_eq_true', Bool.not_eq_false] at h1 h2
    simp only [Start.skips, h1, h2, Bool.not_true, Bool.false_or]
    exact h3

theorem apply_open {st : Start File} (h : st.skips = false) (hit : Option String)
    (search : Option (Option Candidate)) :
    apply st.cfg st.explicit st.force hit search =
      match hit.filter fun _ => !st.force with
      | some hit => { config := withTuned st.cfg st.explicit (Overrides.parse hit) }
      | none => match search with
        | none => { config := st.cfg }
        | some none => { config := st.cfg }
        | some (some best) =>
          { config := st.tunedTo best, stored := some (tunedKeys st.pinned.1 best).toString } := by
  obtain ⟨h12, h3⟩ := Bool.or_eq_false_iff.mp h
  obtain ⟨h1, h2⟩ := Bool.or_eq_false_iff.mp h12
  have h3' : (tuningKeys.all fun key => ((pins st.cfg st.explicit).get? key).isSome) = false := h3
  simp only [apply]
  rw [h1, h2, h3', if_neg Bool.false_ne_true, if_neg Bool.false_ne_true, if_neg Bool.false_ne_true]
  cases hit.filter fun _ => !st.force with
  | some hit => rfl
  | none =>
    cases search with
    | none => rfl
    | some best => cases best <;> rfl

variable (decode encode name file) in
/-- process `i` alone, given some answers, launches `cfg` and leaves `cache` in the file -/
def Starts.Ends (s : Starts File Raw) (i pid : Nat) (st : Start File) (cfg : EngineConfig)
    (cache : Option Raw) : Prop :=
  ∃ (xs : List (StartAnswer Raw)) (t : Starts File Raw),
    (startsSys decode encode name file).exec s (xs.map (.advance i)) = some t ∧
      t.process i = some ⟨pid, st, .launched cfg⟩ ∧ t.disk name.replacing.target = cache

theorem Starts.Ends.now {s : Starts File Raw} {i pid : Nat} {st : Start File} {cfg : EngineConfig}
    (hp : s.process i = some ⟨pid, st, .launched cfg⟩) :
    s.Ends decode encode name file i pid st cfg (s.disk name.replacing.target) :=
  ⟨[], s, rfl, hp, rfl⟩

theorem Starts.Ends.after {s : Starts File Raw} {i pid : Nat} {st : Start File}
    {stage next : StartStage Raw} {x : StartAnswer Raw} {disk : Disk String Raw}
    {cfg : EngineConfig} {cache : Option Raw} (hp : s.process i = some ⟨pid, st, stage⟩)
    (h : (Process.mk pid st stage).step decode encode name s.disk x = some (next, disk))
    (hrest : ∀ t : Starts File Raw, t.process i = some ⟨pid, st, next⟩ → t.disk = disk →
      t.Ends decode encode name file i pid st cfg cache) :
    s.Ends decode encode name file i pid st cfg cache := by
  have hstep : ∃ t, (startsSys decode encode name file).step s (.advance i x) = some t ∧
      t.process i = some ⟨pid, st, next⟩ ∧ t.disk = disk := by
    refine ⟨{ s with
      disk
      process := Function.update s.process i (some ⟨pid, st, next⟩)
      found := s.found ++ (Process.mk pid st stage).finds next
      stored := s.stored ++ (Process.mk pid st stage).stores x }, ?_,
      Function.update_self .., rfl⟩
    show (s.process i).bind _ = _
    rw [hp, Option.bind_some, h]
    rfl
  obtain ⟨t, ht, htp, htd⟩ := hstep
  obtain ⟨xs, u, hu, hrest⟩ := hrest t htp htd
  refine ⟨x :: xs, u, ?_, hrest⟩
  show ((startsSys decode encode name file).step s (.advance i x)).bind _ = _
  rw [ht]
  exact hu

variable (decode encode) in
/-- the cache after `store`, on a host that fails no call -/
def CacheName.storeInto (name : CacheName) (pid : Nat) (cache : Option Raw) (entry : CacheEntry) :
    Option Raw :=
  match storeFile decode encode (name.place pid) ⟨.ok (), .ok (), .ok ()⟩ cache entry with
  | .ok json => some json
  | .error _ => cache

theorem storeInto_eq (name : CacheName) (pid : Nat) (cache : Option Raw) (entry : CacheEntry) :
    name.storeInto decode encode pid cache entry =
      match encode (store (read decode cache) entry) with
      | .ok json => some json
      | .error _ => cache := by
  have hdir : makeDir (name.place pid) ⟨.ok (), .ok (), .ok ()⟩ = .ok () := by
    unfold makeDir
    split <;> rfl
  unfold CacheName.storeInto storeFile
  dsimp only
  rw [hdir]
  cases encode (store (read decode cache) entry) <;> rfl

theorem store_alone {s : Starts File Raw} {i pid : Nat} {st : Start File} {best : Candidate}
    {entry : CacheEntry} (hp : s.process i = some ⟨pid, st, .storing best entry .reading⟩) :
    s.Ends decode encode name file i pid st (st.tunedTo best)
      (name.storeInto decode encode pid (s.disk name.replacing.target) entry) := by
  rw [storeInto_eq]
  refine .after (x := .ok) hp rfl fun t ht htd => ?_
  cases henc : encode (store (read decode (s.disk name.replacing.target)) entry) with
  | error err =>
    have hcreated : st.created decode encode best entry (s.disk name.replacing.target)
        = .launched (st.tunedTo best) := by
      unfold Start.created
      rw [henc]
    refine .after (x := .ok) ht rfl fun u hu hud => ?_
    rw [hcreated] at hu
    have hnow : u.Ends decode encode name file i pid st _ _ := .now hu
    rw [hud, htd] at hnow
    exact hnow
  | ok json =>
    have hcreated : st.created decode encode best entry (s.disk name.replacing.target)
        = .storing best entry (.writing json) := by
      unfold Start.created
      rw [henc]
    refine .after (x := .ok) ht rfl fun u hu hud => ?_
    rw [hcreated] at hu
    refine .after (x := .ok) hu rfl fun v hv hvd => ?_
    have hown : v.disk (name.replacing.own pid) = some json := by
      rw [hvd]
      exact Replacing.write_own _
    have hswap : name.replacing.swap v.disk pid = some (Function.update
        (Function.update v.disk (name.replacing.own pid) none) name.replacing.target
          (some json)) := by
      unfold Replacing.swap
      rw [hown]
      rfl
    refine .after (x := .ok) hv (congrArg (Option.map _) hswap) fun w hw hwd => ?_
    have hnow : w.Ends decode encode name file i pid st _ _ := .now hw
    rw [hwd, Function.update_self] at hnow
    exact hnow

variable (decode encode) in
def Start.cached (st : Start File) (name : CacheName) (pid : Nat) (cache : Option Raw) (x : Trials)
    (report : Report) : Option Raw :=
  if st.skips then cache
  else match (lookupFile decode cache st.key).filter fun _ => !st.force, report.best with
    | none, some (best, rate) =>
      name.storeInto decode encode pid cache (st.entry x report best rate)
    | _, _ => cache

/-- **A process that nobody interrupts** launches what `apply` gives for the cached result and its
search, and leaves the cache as `store` does. -/
theorem apply_alone {s : Starts File Raw} {i pid : Nat} {st : Start File} (x : Trials)
    {report : Report} (hsearch : st.search x = some report)
    (hp : s.process i = some ⟨pid, st, st.begins⟩) :
    s.Ends decode encode name file i pid st
      (apply st.cfg st.explicit st.force
        ((lookupFile decode (s.disk name.replacing.target) st.key).map (·.tuned))
        (some (report.best.map Prod.fst))).config
      (st.cached decode encode name pid (s.disk name.replacing.target) x report) := by
  unfold Start.begins at hp
  unfold Start.cached
  cases hskips : st.skips with
  | true =>
    rw [hskips] at hp
    rw [apply_skips hskips]
    exact .now hp
  | false =>
    rw [hskips, if_neg Bool.false_ne_true] at hp
    rw [apply_open hskips, Option.filter_map, if_neg Bool.false_ne_true]
    refine .after (x := .ok) hp rfl fun t ht htd => ?_
    have hnow : ∀ cfg, t.process i = some ⟨pid, st, .launched cfg⟩ →
        t.Ends decode encode name file i pid st cfg (s.disk name.replacing.target) := by
      intro cfg hcfg
      rw [← htd]
      exact .now hcfg
    cases hhit : (lookupFile decode (s.disk name.replacing.target) st.key).filter
        fun _ => !st.force with
    | some hit =>
      have hlooked : st.looked decode (s.disk name.replacing.target)
          = .launched (withTuned st.cfg st.explicit (Overrides.parse hit.tuned)) := by
        unfold Start.looked
        rw [hhit]
      have hfilter : Option.filter ((fun _ => !st.force) ∘ CacheEntry.tuned)
          (lookupFile decode (s.disk name.replacing.target) st.key) = some hit := hhit
      have hlaunched : t.process i = some ⟨pid, st,
          .launched (withTuned st.cfg st.explicit (Overrides.parse hit.tuned))⟩ := by
        rw [← hlooked]
        exact ht
      rw [hfilter, Option.map_some]
      exact hnow _ hlaunched
    | none =>
      have hlooked : st.looked decode (s.disk name.replacing.target) = .searching := by
        unfold Start.looked
        rw [hhit]
      have hfilter : Option.filter ((fun _ => !st.force) ∘ CacheEntry.tuned)
          (lookupFile decode (s.disk name.replacing.target) st.key) = none := hhit
      rw [hlooked] at ht
      rw [hfilter]
      have hended : (Process.mk pid st (.searching : StartStage Raw)).step decode encode name t.disk
          (.searched x) = some (st.ended x report, t.disk) := by
        show (st.search x).map _ = _
        rw [hsearch]
        rfl
      refine .after ht hended fun u hu hud => ?_
      unfold Start.ended at hu
      cases hbest : report.best with
      | none =>
        rw [hbest] at hu
        rw [← htd, ← hud]
        exact .now hu
      | some b =>
        obtain ⟨best, rate⟩ := b
        rw [hbest] at hu
        rw [← htd, ← hud]
        exact store_alone hu

/-! ## runs of known processes -/

/-- what every process is, when none but those of `is` run -/
def allOn (is : List Nat) (s : Starts File Raw) (ok : Process File Raw → Bool) : Bool :=
  is.all fun j => (s.process j).all ok

theorem all_of_on {is : List Nat} {s : Starts File Raw} (hs : ∀ j, j ∉ is → s.process j = none)
    {ok : Process File Raw → Bool} (h : allOn is s ok = true) :
    ∀ j p, s.process j = some p → ok p = true := by
  intro j p hp
  have hj : j ∈ is := by
    by_contra hj
    rw [hs j hj] at hp
    cases hp
  have hall := List.all_eq_true.mp h j hj
  rw [hp] at hall
  exact hall

/-- `Apart` and `OwnPid`, when none but the processes of `is` run -/
def apartOn (is : List Nat) (s : Starts File Raw) : StartsAct File Raw → Bool
  | .start i pid _ => decide (i ∈ is) && allOn is s fun p => decide (p.pid ≠ pid)
  | .advance i x =>
    match s.process i, x with
    | some ⟨_, _, .storing _ _ .reading⟩, .ok => allOn is s fun p => !p.stage.replaces
    | some ⟨_, _, .storing _ _ .reading⟩, _ => false
    | _, _ => true
  | .stop _ => true

theorem apart_of_on {is : List Nat} {s : Starts File Raw}
    (hs : ∀ j, j ∉ is → s.process j = none) {a : StartsAct File Raw}
    (h : apartOn is s a = true) : Apart s a ∧ OwnPid s a := by
  cases a with
  | stop i => exact ⟨trivial, trivial⟩
  | start i pid st =>
    obtain ⟨-, hpid⟩ := (Bool.and_eq_true ..).mp h
    exact ⟨trivial, fun j p hp => of_decide_eq_true (all_of_on hs hpid j p hp)⟩
  | advance i x =>
    refine ⟨fun pid st best entry hp => ?_, trivial⟩
    unfold apartOn at h
    dsimp only at h
    rw [hp] at h
    cases x with
    | ok => exact ⟨rfl, fun j q hq => (Bool.not_eq_true' _).mp (all_of_on hs h j q hq)⟩
    | fails content => cases h
    | timedOut => cases h
    | searched x => cases h

theorem step_on {is : List Nat} {s t : Starts File Raw} (hs : ∀ j, j ∉ is → s.process j = none)
    {a : StartsAct File Raw} (h : apartOn is s a = true)
    (hstep : startsStep decode encode name s a = some t) : ∀ j, j ∉ is → t.process j = none := by
  intro j hj
  cases a with
  | start i pid st =>
    obtain ⟨_, he⟩ := Option.ite_none_right_eq_some.mp hstep
    cases he
    have hi : i ∈ is := of_decide_eq_true ((Bool.and_eq_true ..).mp h).1
    have hne : j ≠ i := fun he => hj (he ▸ hi)
    exact (Function.update_of_ne hne ..).trans (hs j hj)
  | stop i =>
    cases hstep
    by_cases hne : j = i
    · exact hne ▸ Function.update_self ..
    · exact (Function.update_of_ne hne ..).trans (hs j hj)
  | advance i x =>
    obtain ⟨p, hp, he⟩ := Option.bind_eq_some_iff.mp hstep
    obtain ⟨r, _, rfl⟩ := Option.map_eq_some_iff.mp he
    have hne : j ≠ i := by
      rintro rfl
      rw [hs j hj] at hp
      cases hp
    exact (Function.update_of_ne hne ..).trans (hs j hj)

theorem meets_apart {is : List Nat} {as : List (StartsAct File Raw)} {s : Starts File Raw}
    (hs : ∀ j, j ∉ is → s.process j = none)
    (h : (startsSys decode encode name file).check (apartOn is) s as = true) :
    (startsSys decode encode name file).Meets (fun s a => Apart s a ∧ OwnPid s a) s as := by
  induction as generalizing s with
  | nil => trivial
  | cons a as ih =>
    obtain ⟨h1, h2⟩ := (Bool.and_eq_true ..).mp h
    refine ⟨apart_of_on hs h1, fun t ht => ih (step_on hs h1 ht) ?_⟩
    rw [ht] at h2
    exact h2

end

/-! ## two starts -/

def autotuneJson : CacheName where
  stem := "/data/autotune"
  extension := ".json"
  parent := some "/data"
  beside pid h := by
    have hl := congrArg String.toList h
    rw [String.toList_append] at hl
    exact absurd (List.cons.inj (List.cons.inj hl).2).1 (by decide)

def sampleStart (binary model : String) (mode : AutotuneMode) : Start String where
  host := sampleHost
  cfg := { sampleConfig binary model 16 with autotuneMode := mode }
  concurrency := 2
  explicit := ["analysis_threads"]
  force := false
  servers_default _ := rfl
  batch_default _ := rfl

/-- a batch of 64 is the fastest -/
def sampleTrials : Trials where
  measure _ cand floor := .ofRate floor (if cand.batch = some 64 then 160 else 100 : Nat)
  gpuLanes := none
  mayContinue _ := true
  secs := (50 : Nat)
  nowUnix := 0

/-- the first process searches and stores, while the second starts with other names of the same
binary and model -/
def sampleRun (mode : AutotuneMode) : List (StartsAct String CacheText) :=
  [.start 7 70 (sampleStart "katago-rs" "/nets/current.bpk" .thorough), .advance 7 .ok,
    .start 8 80 (sampleStart "/opt/katago-rs" "/nets/g170e-b10c128.bpk" mode),
    .advance 7 (.searched sampleTrials), .advance 7 .ok, .advance 7 .ok, .advance 7 .ok,
    .advance 7 .ok]

abbrev sampleStarts : Sys (Starts String CacheText) (StartsAct String CacheText) :=
  startsSys CacheText.decode (fun entries => .ok (.json entries)) autotuneJson none

def noStarts : Starts String CacheText := ⟨fun _ => none, fun _ => none, [], []⟩

theorem sampleJson_reads : ReadsBack CacheText.decode (fun entries => .ok (.json entries)) := by
  intro entries json h
  cases h
  rfl

def Process.argument {File Raw : Type} (p : Process File Raw) : Option String :=
  match p.stage with
  | .launched cfg => cfg.katagoOverrides
  | _ => none

theorem launches_measured_recalled : ∃ s pid st cfg, sampleStarts.ReachableIf OwnPid s ∧
    s.process 8 = some ⟨pid, st, .launched cfg⟩ ∧
    cfg.katagoOverrides = some ("numAnalysisThreads=128,numSearchThreadsPerAnalysisThread=1," ++
      "nnMaxBatchSize=64,numNNServerThreadsPerModel=4,logDir=x") ∧
    Keeps st.cfg st.explicit cfg := by
  have hrun : ((sampleStarts.exec noStarts (sampleRun .fast ++ [.advance 8 .ok])).bind
      (·.process 8)).bind Process.argument
        = some ("numAnalysisThreads=128,numSearchThreadsPerAnalysisThread=1," ++
          "nnMaxBatchSize=64,numNNServerThreadsPerModel=4,logDir=x") := by
    decide +kernel
  have hcheck : sampleStarts.check (apartOn [7, 8]) noStarts
      (sampleRun .fast ++ [.advance 8 .ok]) = true := by
    decide +kernel
  obtain ⟨⟨pid, st, stage⟩, hbind, harg⟩ := Option.bind_eq_some_iff.mp hrun
  obtain ⟨s, hs, hp⟩ := Option.bind_eq_some_iff.mp hbind
  have hreach : sampleStarts.ReachableIf OwnPid s :=
    ⟨noStarts, _, ⟨rfl, fun _ => rfl, rfl, rfl⟩, hs,
      (meets_apart (fun _ _ => rfl) hcheck).imp fun _ _ => And.right⟩
  cases stage with
  | launched cfg =>
    rcases (launches_measured sampleJson_reads hreach).2 8 pid st cfg hp with
      ⟨e, he, -⟩ | ⟨hkeeps, -⟩
    · exact absurd he List.not_mem_nil
    · exact ⟨s, pid, st, cfg, hreach, hp, harg, hkeeps⟩
  | looking => cases harg
  | searching => cases harg
  | storing best entry stage => cases harg

/-- a process that is about to find the last entry stored under its key -/
def Starts.finds (s : Starts String CacheText) (p : Process String CacheText) : Bool :=
  match p.stage with
  | .looking => !p.start.force && (lastBy CacheEntry.key s.stored p.start.key).isSome
  | _ => false

-- a store between the read and the rename of another is lost
example : (sampleStarts.exec noStarts
    [.start 7 70 (sampleStart "katago-rs" "/nets/current.bpk" .thorough), .advance 7 .ok,
      .advance 7 (.searched sampleTrials), .advance 7 .ok,
      .start 8 80 (sampleStart "katago-rs" "/nets/current.bpk" .fast), .advance 8 .ok,
      .advance 8 (.searched sampleTrials), .advance 8 .ok, .advance 8 .ok, .advance 8 .ok,
      .advance 8 .ok, .advance 7 .ok, .advance 7 .ok, .advance 7 .ok]).map
      (fun s => (s.stored.length,
        (read CacheText.decode (s.disk autotuneJson.replacing.target)).length)) = some (2, 1) := by
  decide +kernel

-- in two containers both processes have pid 1: one puts in place what the other was still writing
example : (sampleStarts.exec noStarts
    [.start 7 1 (sampleStart "katago-rs" "/nets/current.bpk" .thorough), .advance 7 .ok,
      .advance 7 (.searched sampleTrials), .advance 7 .ok, .advance 7 .ok, .advance 7 .ok,
      .start 8 1 (sampleStart "katago-rs" "/nets/current.bpk" .thorough), .advance 8 .ok,
      .advance 8 (.searched sampleTrials), .advance 8 .ok, .advance 8 .ok,
      .advance 8 (.fails (some (.other "\x7b"))), .advance 7 .ok]).map
      (fun s => (s.stored.length,
        ((s.disk autotuneJson.replacing.target).map fun raw => (CacheText.decode raw).isSome)))
      = some (1, some false) := by
  decide +kernel

end Autotune
end KatagoWs
