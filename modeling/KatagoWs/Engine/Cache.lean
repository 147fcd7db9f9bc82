import KatagoWs.Engine.Search

/-!
# The auto-tune cache

A tuned result is kept under a key and recalled by it.  The key has the GPUs, the stamps of the
binary, the model and the config file, the backend, the precision, `max_visits`, the board size,
the games in flight and the pins; a trial runs at `autotune_visits`.

* `Experiment`        what a trial of a candidate measures;
* `FileStamp.same_file`, `PinSet.toString_inj`, `launched_alike_iff`   what the parts of a key
                      tell;
* `measured_alike_iff`  with equal keys the trials are the same experiments exactly when the
                      visits agree, and the system looks both names of the binary up alike;
* `recalled_alike_iff`  so it is for a recalled result, whichever mode it was searched in.
-/

namespace KatagoWs
namespace Autotune
namespace Cache
open Lib NNRat

/-! ## the host -/

/-- What the host answers.  `fileAt` is the file that opening a path gives, `launched` the one that
the system's own lookup gives for the name of a program. -/
structure Host (File : Type) where
  fileAt : String → Option File
  launched : String → Option File
  canonicalize : String → Option String
  /-- the size, and the nanoseconds since the epoch of the last change -/
  metadata : String → Option (Nat × Option Nat)
  isFile : String → Bool
  /-- the directories of `PATH` -/
  path : Option (List String)
  /-- the visible GPUs and the variables that select them -/
  gpuIdentity : List String
  /-- a canonical path names the same file -/
  canonical : ∀ {p q}, canonicalize p = some q → fileAt q = fileAt p
  /-- a name with a slash is a path, and is not looked up -/
  path_launched : ∀ {binary}, '/' ∈ binary.toList → launched binary = fileAt binary

def joinPath (dir name : String) : String :=
  if dir.isEmpty then name
  else if dir.toList.getLast? = some '/' then dir ++ name
  else dir ++ "/" ++ name

section
variable {File : Type}

/-- the first file of that name on `PATH` -/
def Host.onPath (host : Host File) (binary : String) : Option String :=
  host.path.bind fun dirs => (dirs.map fun dir => joinPath dir binary).find? host.isFile

/-- `binary` as the engine will be launched: a bare name is looked up on `PATH`. -/
def Host.resolveBinary (host : Host File) (binary : String) : String :=
  if '/' ∈ binary.toList then binary else (host.onPath binary).getD binary

/-! ## the key -/

/-- Bump when the tuning procedure changes enough to invalidate old results. -/
def TUNER_VERSION : Nat := 5

def U64_MAX : Nat := 18446744073709551615

/-- Identity of a file: where it resolves to, its size and mtime. -/
structure FileStamp where
  path : String
  size : Nat
  mtimeNs : Nat
deriving DecidableEq, Repr

def FileStamp.of (host : Host File) (path : String) : FileStamp :=
  let resolved := (host.canonicalize path).getD path
  let found := host.metadata resolved
  { path := resolved
    size := (found.map fun e => e.1).getD 0
    mtimeNs := ((found.bind fun e => e.2).map fun ns => min ns U64_MAX).getD 0 }

def modeName : AutotuneMode → String
  | .thorough => "thorough"
  | .fast => "fast"

structure CacheKey where
  tuner : Nat
  mode : String
  gpu : List String
  binary : FileStamp
  backend : EngineBackend
  fp16 : Bool
  model : FileStamp
  config : FileStamp
  maxVisits : Nat
  boardSize : Nat
  concurrency : Nat
  pinned : String
deriving DecidableEq, Repr

/-- a set of pins: pairs as they are read from settings -/
def PinSet : Type := { pinned : Overrides // ∀ e ∈ pinned.entries, Overrides.Plain e }

def PinSet.of (cfg : EngineConfig) (explicit : List String) : PinSet :=
  ⟨pins cfg explicit, pins_plain⟩

def CacheKey.build (host : Host File) (cfg : EngineConfig) (concurrency : Nat) (pinned : PinSet) :
    CacheKey :=
  { tuner := TUNER_VERSION
    mode := modeName cfg.autotuneMode
    gpu := host.gpuIdentity
    binary := FileStamp.of host (host.resolveBinary cfg.binary)
    backend := cfg.backend
    fp16 := cfg.fp16
    model := FileStamp.of host cfg.model
    config := FileStamp.of host cfg.config
    maxVisits := cfg.maxVisits
    boardSize := cfg.defaultBoardSize
    concurrency := concurrency
    pinned := pinned.1.toString }

structure TrialRecord where
  candidate : String
  /-- `measured`, `pruned` or `failed` -/
  outcome : String
  positionsPerSec : ℚ≥0
  error : String
deriving DecidableEq

structure CacheEntry where
  key : CacheKey
  /-- the tuned keys only -/
  tuned : String
  positionsPerSec : ℚ≥0
  tuneSecs : ℚ≥0
  tunedAtUnix : Nat
  trials : List TrialRecord
deriving DecidableEq

/-- The entry for `key`.  A `fast` lookup also accepts a `thorough` result for the same setup. -/
def lookup (entries : List CacheEntry) (key : CacheKey) : Option CacheEntry :=
  match entries.find? fun entry => decide (entry.key = key) with
  | some hit => some hit
  | none =>
    let thorough := modeName .thorough
    if key.mode = thorough then none
    else entries.find? fun entry => decide (entry.key = { key with mode := thorough })

def store (entries : List CacheEntry) (entry : CacheEntry) : List CacheEntry :=
  (entries.filter fun old => decide (old.key ≠ entry.key)) ++ [entry]

/-! ## what a trial measures -/

/-- Positions kept queued per game a worker has in flight. -/
def POSITIONS_PER_GAME : Nat := 230

/-- what a trial measures: the engine that is launched, its settings, the visits per position and
the positions kept queued -/
structure Experiment (File : Type) where
  backend : EngineBackend
  binary : Option File
  model : Option File
  config : Option File
  fp16 : Bool
  overrides : Overrides
  visits : Nat
  depth : Nat

/-- One candidate: a fresh engine with the trial's settings, fed the corpus. -/
def experiment (host : Host File) (cfg : EngineConfig) (concurrency : Nat) (pinned : PinSet)
    (cand : Candidate) : Experiment File :=
  let overrides := trialOverrides pinned.1 cand
  let trialCfg := launchCfg cfg overrides
  { backend := trialCfg.backend
    binary := host.launched trialCfg.binary
    model := host.fileAt trialCfg.model
    config := host.fileAt trialCfg.config
    fp16 := trialCfg.fp16
    overrides := overrides
    visits := trialCfg.maxVisits
    depth := concurrency * POSITIONS_PER_GAME }

/-! ## what the parts of a key tell -/

theorem resolved_file (host : Host File) (path : String) :
    host.fileAt ((host.canonicalize path).getD path) = host.fileAt path := by
  cases h : host.canonicalize path with
  | none => rfl
  | some q => exact host.canonical h

theorem FileStamp.same_file {host : Host File} {p q : String}
    (h : FileStamp.of host p = FileStamp.of host q) : host.fileAt p = host.fileAt q := by
  have hpath : (host.canonicalize p).getD p = (host.canonicalize q).getD q :=
    congrArg FileStamp.path h
  rw [← resolved_file host p, hpath, resolved_file]

theorem PinSet.toString_inj {p q : PinSet} (h : p.1.toString = q.1.toString) : p = q := by
  refine Subtype.ext ?_
  rw [← Overrides.parse_toString p.2, h, Overrides.parse_toString q.2]

/-- the system's lookup gives the file that the name is resolved to -/
def Host.Resolves (host : Host File) (binary : String) : Prop :=
  host.launched binary = host.fileAt (host.resolveBinary binary)

theorem Host.resolves_path (host : Host File) {binary : String} (h : '/' ∈ binary.toList) :
    host.Resolves binary := by
  rw [Host.Resolves, Host.resolveBinary, if_pos h, host.path_launched h]

/-- the system looks both names up as they are resolved, or neither, and then to one file -/
def Host.FoundAlike (host : Host File) (binary₁ binary₂ : String) : Prop :=
  (host.Resolves binary₁ ↔ host.Resolves binary₂) ∧
    (¬ host.Resolves binary₁ → host.launched binary₁ = host.launched binary₂)

theorem launched_alike_iff {host : Host File} {binary₁ binary₂ : String}
    (h : host.fileAt (host.resolveBinary binary₁) = host.fileAt (host.resolveBinary binary₂)) :
    host.launched binary₁ = host.launched binary₂ ↔ host.FoundAlike binary₁ binary₂ := by
  constructor
  · intro hl
    refine ⟨?_, fun _ => hl⟩
    rw [Host.Resolves, Host.Resolves, hl, h]
  · rintro ⟨hboth, hneither⟩
    by_cases h1 : host.Resolves binary₁
    · have h2 : host.Resolves binary₂ := hboth.mp h1
      exact h1.trans (h.trans h2.symm)
    · exact hneither h1

def UpToMax (cfg : EngineConfig) : Prop :=
  cfg.autotuneVisits = 0 ∨ cfg.maxVisits ≤ cfg.autotuneVisits

def VisitsAlike (cfg₁ cfg₂ : EngineConfig) : Prop :=
  cfg₁.autotuneVisits = cfg₂.autotuneVisits ∨ UpToMax cfg₁ ∧ UpToMax cfg₂

theorem trialVisits_eq (cfg : EngineConfig) : trialVisits cfg
    = if cfg.autotuneVisits = 0 then cfg.maxVisits else min cfg.autotuneVisits cfg.maxVisits := by
  unfold trialVisits
  split
  · next h => rw [if_pos h]
  · next h => rw [if_neg h]

theorem trialVisits_alike_iff {cfg₁ cfg₂ : EngineConfig} (h : cfg₁.maxVisits = cfg₂.maxVisits) :
    trialVisits cfg₁ = trialVisits cfg₂ ↔ VisitsAlike cfg₁ cfg₂ := by
  rw [trialVisits_eq, trialVisits_eq, VisitsAlike, UpToMax, UpToMax]
  split_ifs <;> omega

/-! ## equal keys -/

variable {host : Host File} {cfg₁ cfg₂ : EngineConfig} {concurrency₁ concurrency₂ : Nat}
  {pinned₁ pinned₂ : PinSet}

/-- the trials of every candidate are the same experiments -/
def MeasuredAlike (host : Host File) (cfg₁ cfg₂ : EngineConfig) (concurrency₁ concurrency₂ : Nat)
    (pinned₁ pinned₂ : PinSet) : Prop :=
  ∀ cand, experiment host cfg₁ concurrency₁ pinned₁ cand
    = experiment host cfg₂ concurrency₂ pinned₂ cand

/-- **Keys that differ in the mode at most**: the trials are the same experiments exactly when the
visits agree and the system looks both names of the binary up alike. -/
theorem alike_iff_of_mode (mode : String)
    (h : { CacheKey.build host cfg₁ concurrency₁ pinned₁ with mode := mode }
      = { CacheKey.build host cfg₂ concurrency₂ pinned₂ with mode := mode }) :
    MeasuredAlike host cfg₁ cfg₂ concurrency₁ concurrency₂ pinned₁ pinned₂ ↔
      VisitsAlike cfg₁ cfg₂ ∧ host.FoundAlike cfg₁.binary cfg₂.binary := by
  obtain ⟨-, -, -, hbinary, hbackend, hfp16, hmodel, hconfig, hvisits, -, hconc, hpinned⟩ :=
    CacheKey.mk.inj h
  have hpins : pinned₁ = pinned₂ := PinSet.toString_inj hpinned
  have hconc' : concurrency₁ = concurrency₂ := hconc
  subst hpins hconc'
  rw [← trialVisits_alike_iff hvisits, ← launched_alike_iff (FileStamp.same_file hbinary)]
  constructor
  · intro he
    have hcand := he ⟨none, none, none⟩
    exact ⟨congrArg Experiment.visits hcand, congrArg Experiment.binary hcand⟩
  · rintro ⟨hv, hl⟩ cand
    have hm : host.fileAt cfg₁.model = host.fileAt cfg₂.model := FileStamp.same_file hmodel
    have hc : host.fileAt cfg₁.config = host.fileAt cfg₂.config := FileStamp.same_file hconfig
    show Experiment.mk cfg₁.backend (host.launched cfg₁.binary) (host.fileAt cfg₁.model)
        (host.fileAt cfg₁.config) cfg₁.fp16 _ (trialVisits cfg₁) _
      = Experiment.mk cfg₂.backend (host.launched cfg₂.binary) (host.fileAt cfg₂.model)
        (host.fileAt cfg₂.config) cfg₂.fp16 _ (trialVisits cfg₂) _
    have hb : cfg₁.backend = cfg₂.backend := hbackend
    have hf : cfg₁.fp16 = cfg₂.fp16 := hfp16
    rw [hb, hl, hm, hc, hf, hv]

theorem spaces_alike
    (h : CacheKey.build host cfg₁ concurrency₁ pinned₁
      = CacheKey.build host cfg₂ concurrency₂ pinned₂) :
    Thorough.Space.new pinned₁.1 (concurrency₁ * POSITIONS_PER_GAME) cfg₁.backend
        = Thorough.Space.new pinned₂.1 (concurrency₂ * POSITIONS_PER_GAME) cfg₂.backend ∧
      ∀ gpuLanes, Fast.Space.new pinned₁.1 (concurrency₁ * POSITIONS_PER_GAME) cfg₁.backend gpuLanes
        = Fast.Space.new pinned₂.1 (concurrency₂ * POSITIONS_PER_GAME) cfg₂.backend gpuLanes := by
  obtain ⟨-, -, -, -, hbackend, -, -, -, -, -, hconc, hpinned⟩ := CacheKey.mk.inj h
  have hpins : pinned₁ = pinned₂ := PinSet.toString_inj hpinned
  have hb : cfg₁.backend = cfg₂.backend := hbackend
  have hc : concurrency₁ = concurrency₂ := hconc
  rw [hpins, hb, hc]
  exact ⟨rfl, fun _ => rfl⟩

/-! ## a recalled result -/

theorem lookup_key {entries : List CacheEntry} {key : CacheKey} {hit : CacheEntry}
    (h : lookup entries key = some hit) :
    hit ∈ entries ∧ (hit.key = key ∨ hit.key = { key with mode := modeName .thorough }) := by
  unfold lookup at h
  split at h
  · next hf =>
    cases h
    exact ⟨List.mem_of_find?_eq_some hf, .inl (of_decide_eq_true (List.find?_some hf :))⟩
  · dsimp only at h
    split_ifs at h
    exact ⟨List.mem_of_find?_eq_some h, .inr (of_decide_eq_true (List.find?_some h :))⟩

theorem lookup_store (entries : List CacheEntry) (entry : CacheEntry) :
    lookup (store entries entry) entry.key = some entry := by
  have hf : (store entries entry).find? (fun e => decide (e.key = entry.key)) = some entry :=
    (firstBy_renew CacheEntry.key entries entry entry.key).trans (if_pos rfl)
  rw [lookup, hf]

/-- **A recalled result** of another setup is what tuning would measure, under the same
condition, whichever mode it was searched in. -/
theorem recalled_alike_iff {entries : List CacheEntry} {hit : CacheEntry}
    (h : lookup entries (CacheKey.build host cfg₂ concurrency₂ pinned₂) = some hit)
    (hk : hit.key = CacheKey.build host cfg₁ concurrency₁ pinned₁) :
    MeasuredAlike host cfg₁ cfg₂ concurrency₁ concurrency₂ pinned₁ pinned₂ ↔
      VisitsAlike cfg₁ cfg₂ ∧ host.FoundAlike cfg₁.binary cfg₂.binary := by
  refine alike_iff_of_mode (modeName .thorough) ?_
  rw [← hk]
  rcases (lookup_key h).2 with he | he
  · rw [he]
  · rw [he]

end

/-! ## a host -/

/-- a host with one engine, and two names of its network -/
def sampleOpen (path : String) : Option String :=
  if path = "/nets/current.bpk" then some "/nets/g170e-b10c128.bpk"
  else if path ∈ ["/opt/katago-rs", "/nets/g170e-b10c128.bpk", "/opt/analysis.cfg"] then some path
  else none

theorem sampleOpen_again {p q : String} (h : sampleOpen p = some q) :
    sampleOpen q = sampleOpen p := by
  rw [h]
  unfold sampleOpen at h
  split_ifs at h
  · cases h
    decide
  · next h1 h2 =>
    cases h
    rw [sampleOpen, if_neg h1, if_pos h2]

def sampleHost : Host String where
  fileAt := sampleOpen
  canonicalize := sampleOpen
  metadata path := (sampleOpen path).map fun _ => (3, some 1)
  launched binary := if '/' ∈ binary.toList then sampleOpen binary
    else ["/usr/bin/" ++ binary, "/opt/" ++ binary].findSome? sampleOpen
  isFile path := (sampleOpen path).isSome
  path := some ["/usr/bin", "/opt"]
  gpuIdentity := ["pci 0x1002:0x73bf rev 0xc1"]
  canonical := sampleOpen_again
  path_launched h := if_pos h

def noPins : PinSet := ⟨SeqMap.empty, fun _ h => by cases h⟩

def sampleConfig (binary model : String) (autotuneVisits : Nat) : EngineConfig :=
  { rocmConfig with
    binary, model, autotuneVisits
    config := "/opt/analysis.cfg"
    maxVisits := 500 }

theorem sampleHost_found : sampleHost.FoundAlike "katago-rs" "/opt/katago-rs" := by
  have hname : sampleHost.Resolves "katago-rs" := by
    show sampleHost.launched "katago-rs" = sampleHost.fileAt (sampleHost.resolveBinary "katago-rs")
    decide +kernel
  have hpath : sampleHost.Resolves "/opt/katago-rs" := sampleHost.resolves_path (by decide)
  exact ⟨iff_of_true hname hpath, fun h => absurd hname h⟩

end Cache
end Autotune
end KatagoWs
