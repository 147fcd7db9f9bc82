import Mathlib.Data.Nat.Log
import KatagoWs.Engine.Overrides

/-!
# The throughput auto-tune

Four startup settings are measured, not hardcoded.  Settings given explicitly are pinned: the
tuner only searches the rest.  What a trial runs with is one merged list of overrides
(`trialOverrides`, `launchCfg`); what is launched afterwards goes through the fields of the
configuration, where `0` stands for the config file's value (`withTuned`).

* `get_pins`          the pins: `override_config`'s value, else the explicit non-zero field;
* `Candidate.Fits`    what a search space promises of its candidates (`Produced.fits`);
* `settings_launchCfg`, `settings_withTuned`   the two arguments as maps;
* `launched_as_measured`  the launched settings are the measured ones, pins are kept on every
                      path, and a recalled result gives the configuration its run gave.
-/

namespace KatagoWs
namespace Autotune
open Lib

/-! ## candidates -/

/-- One point of the search.  `none` = the key is pinned. -/
structure Candidate where
  analysisThreads : Option Nat
  servers : Option Nat
  batch : Option Nat
deriving DecidableEq, Repr

/-- one past the largest `u32` -/
def U32_RANGE : Nat := 4294967296

def parseU32 (s : String) : Option Nat := (parseUsize s.toList).filter (· < U32_RANGE)

namespace Thorough

def ANALYSIS_CANDIDATES : List Nat := [256, 128, 512]

def ROCM_SERVER_BATCH : List (Nat × Nat) := [(8, 64), (4, 96), (4, 64), (8, 32)]

def WGPU_SERVER_BATCH : List (Nat × Nat) := [(4, 64), (8, 32), (6, 48), (2, 128)]

/-- The search space left once pinned keys are taken out. -/
structure Space where
  analysis : List (Option Nat)
  serverBatch : List (Option Nat × Option Nat)
deriving DecidableEq, Repr

def Space.new (pinned : Overrides) (depth : Nat) (backend : EngineBackend) : Space :=
  let pairs := match backend with
    | .rocm => ROCM_SERVER_BATCH
    | .wgpu | .flex | .upstream => WGPU_SERVER_BATCH
  let analysis := if (pinned.get? ANALYSIS_THREADS).isSome then [none]
    else (ANALYSIS_CANDIDATES.zipIdx.filter fun e => e.2 == 0 || decide (e.1 ≤ depth)).map
      fun e => some e.1
  let pinSrv := (pinned.get? SERVER_THREADS).isSome
  let pinBatch := (pinned.get? BATCH_SIZE).isSome
  let serverBatch := match pinSrv, pinBatch with
    | true, true => [(none, none)]
    -- one of the pair pinned: the other varies over its candidate values
    | true, false => (pairs.map fun e => (none, some e.2)).eraseDups
    | false, true => (pairs.map fun e => (some e.1, none)).eraseDups
    | false, false => pairs.map fun e => (some e.1, some e.2)
  ⟨analysis, serverBatch⟩

def Space.first (space : Space) : Candidate :=
  let e := space.serverBatch.head?.getD (none, none)
  ⟨space.analysis.head?.join, e.1, e.2⟩

/-- servers and batches, at the first number of analysis threads -/
def Space.stageA (space : Space) : List Candidate :=
  space.serverBatch.map fun e => { space.first with servers := e.1, batch := e.2 }

/-- the other numbers of analysis threads, around the winner of the first stage -/
def Space.stageB (space : Space) (leader : Candidate) : List Candidate :=
  (space.analysis.drop 1).map fun threads => { leader with analysisThreads := threads }

def Space.candidates (space : Space) : List Candidate :=
  space.first :: (space.stageA ++ space.stageA.flatMap space.stageB)

end Thorough

namespace Fast

def SERVER_LADDER : List Nat := [1, 2, 4, 8, 16]

def MIN_BATCH : Nat := 8

def HEADROOM_BATCH : Nat := 64

/-- the share of the positions in flight, at least the headroom, at most the total -/
def batchCap (total servers : Nat) : Nat :=
  max (max (total / servers) (min HEADROOM_BATCH total)) 1

def ROCM_PRIOR : Nat := 8
def WGPU_PRIOR : Nat := 4

def floorPow2 (num : Nat) : Nat := if num = 0 then 0 else 1 <<< Nat.log2 num

def inFlight (gpuLanes : Option Nat) (depth : Nat) : Nat :=
  let want := match gpuLanes with
    | none => 256
    | some lanes => min (max (floorPow2 (lanes / 16)) 128) 512
  let room := max (floorPow2 (min depth (U32_RANGE - 1))) 64
  min want room

def pinnedNum (pinned : Overrides) (key : String) : Option (Option Nat) :=
  (pinned.get? key).map parseU32

def ladderOf (total : Nat) (servers batch : Option (Option Nat)) :
    List (Option Nat × Option Nat) :=
  match servers, batch with
  | some _, some _ => [(none, none)]
  -- one of the pair pinned: the other follows from the total
  | some servers, none =>
    [(none, (servers.filter (· > 0)).map fun srv => batchCap total srv)]
  | none, some batch => [((batch.filter (· > 0)).map fun bat => max (total / bat) 1, none)]
  | none, none =>
    (SERVER_LADDER.filter fun srv => srv == 1 || decide (total / srv ≥ MIN_BATCH)).map
      fun srv => (some srv, some (batchCap total srv))

structure Space where
  total : Nat
  analysisThreads : Option Nat
  ladder : List (Option Nat × Option Nat)
  prior : Nat
deriving DecidableEq, Repr

def Space.new (pinned : Overrides) (depth : Nat) (backend : EngineBackend)
    (gpuLanes : Option Nat) : Space :=
  let total := inFlight gpuLanes depth
  let analysisThreads := if (pinned.get? ANALYSIS_THREADS).isNone then some total else none
  let ladder := ladderOf total (pinnedNum pinned SERVER_THREADS) (pinnedNum pinned BATCH_SIZE)
  let want := match backend with
    | .rocm => ROCM_PRIOR
    | .wgpu | .flex | .upstream => WGPU_PRIOR
  -- the last rung that is no higher than the backend's usual winner
  let prior := ((ladder.zipIdx.filter fun e => e.1.1.all (· ≤ want)).getLast?.map (·.2)).getD 0
  ⟨total, analysisThreads, ladder, prior⟩

def Space.candidate (space : Space) (idx : Nat) : Option Candidate :=
  space.ladder[idx]?.map fun e => ⟨space.analysisThreads, e.1, e.2⟩

end Fast

/-- a candidate one of the two searches may measure, or name the best -/
inductive Produced (pinned : Overrides) (backend : EngineBackend) (cand : Candidate) : Prop where
  | thorough (depth : Nat) (h : cand ∈ (Thorough.Space.new pinned depth backend).candidates)
  | fast (depth : Nat) (gpuLanes : Option Nat) (idx : Nat)
      (h : (Fast.Space.new pinned depth backend gpuLanes).candidate idx = some cand)

/-! ## the configuration -/

/-- `[engine]` fields the tuner sets, with the config key each one becomes. -/
def TUNING_FIELDS : List (String × String) :=
  [("analysis_threads", ANALYSIS_THREADS), ("search_threads_per_analysis", SEARCH_THREADS),
    ("nn_server_threads", SERVER_THREADS), ("nn_max_batch_size", BATCH_SIZE)]

def fieldValue (cfg : EngineConfig) (key : String) : Nat :=
  if key = ANALYSIS_THREADS then cfg.analysisThreads
  else if key = SEARCH_THREADS then cfg.searchThreadsPerAnalysis
  else if key = SERVER_THREADS then cfg.nnServerThreads
  else if key = BATCH_SIZE then cfg.nnMaxBatchSize
  else 0

def fieldMut (cfg : EngineConfig) (key : String) : Option (Nat → EngineConfig) :=
  if key = ANALYSIS_THREADS then some fun n => { cfg with analysisThreads := n }
  else if key = SEARCH_THREADS then some fun n => { cfg with searchThreadsPerAnalysis := n }
  else if key = SERVER_THREADS then some fun n => { cfg with nnServerThreads := n }
  else if key = BATCH_SIZE then some fun n => { cfg with nnMaxBatchSize := n }
  else none

/-- The explicitly set throughput keys: the explicit fields that are not `0`, then
`override_config`'s keys, which win on a clash. -/
def pins (cfg : EngineConfig) (explicit : List String) : Overrides :=
  let pinned := TUNING_FIELDS.foldl (fun (pinned : Overrides) e =>
    if e.1 ∈ explicit ∧ fieldValue cfg e.2 > 0 then pinned.set e.2 (toString (fieldValue cfg e.2))
    else pinned) SeqMap.empty
  pinned.extend (Overrides.parse cfg.overrideConfig).entries

/-- A field neither explicit nor tuned but pinned through `override_config` is zeroed. -/
def zeroField (explicit : List String) (inOverride : Overrides) (cfg : EngineConfig)
    (e : String × String) : EngineConfig :=
  if e.1 ∉ explicit ∧ (inOverride.get? e.2).isSome then
    match fieldMut cfg e.2 with
    | some slot => slot 0
    | none => cfg
  else cfg

def applyKey (st : EngineConfig × Overrides) (e : String × String) : EngineConfig × Overrides :=
  match fieldMut st.1 e.1, parseU32 e.2 with
  | some slot, some num => (slot num, st.2)
  | _, _ => (st.1, st.2.set e.1 e.2)

def withTuned (cfg : EngineConfig) (explicit : List String) (tuned : Overrides) : EngineConfig :=
  let inOverride := Overrides.parse cfg.overrideConfig
  let zeroed := TUNING_FIELDS.foldl (zeroField explicit inOverride) cfg
  let st := tuned.entries.foldl applyKey (zeroed, inOverride)
  { st.1 with overrideConfig := st.2.toString }

def trialVisits (cfg : EngineConfig) : Nat :=
  match cfg.autotuneVisits with
  | 0 => cfg.maxVisits
  | visits => min visits cfg.maxVisits

/-- `cfg` launched with exactly `overrides` as `-override-config`, at the trial's visits, and
without the human model. -/
def launchCfg (cfg : EngineConfig) (overrides : Overrides) : EngineConfig :=
  { cfg with
    maxVisits := trialVisits cfg
    analysisThreads := 0
    searchThreadsPerAnalysis := 0
    nnServerThreads := 0
    nnMaxBatchSize := 0
    overrideConfig := overrides.toString
    humanModel := "" }

/-- The keys the tuner sets for `cand`, minus any pinned ones. -/
def tunedKeys (pinned : Overrides) (cand : Candidate) : Overrides :=
  let keys : Overrides := SeqMap.empty
  let keys := if (pinned.get? SEARCH_THREADS).isNone then keys.set SEARCH_THREADS "1" else keys
  let keys := match cand.analysisThreads with
    | some threads => keys.set ANALYSIS_THREADS (toString threads)
    | none => keys
  let keys := match cand.servers with
    | some servers => keys.set SERVER_THREADS (toString servers)
    | none => keys
  let keys := match cand.batch with
    | some batch => keys.set BATCH_SIZE (toString batch)
    | none => keys
  keys.retain fun key => (pinned.get? key).isNone

/-- The full `-override-config` a trial runs with: the pinned keys plus the candidate's. -/
def trialOverrides (pinned : Overrides) (cand : Candidate) : Overrides :=
  pinned.fill (tunedKeys pinned cand)

def tune (pinned : Overrides) (best : Option Candidate) : Except String Overrides :=
  match best with
  | none => .error "every trial failed"
  | some best => .ok (tunedKeys pinned best)

/-- the configuration to launch, and the tuned keys written to the cache -/
structure Applied where
  config : EngineConfig
  stored : Option String := none

/-- Tune (or recall) the throughput settings.  `hit` is what the cache holds for this
configuration, `search` what the search found, unless it timed out. -/
def apply (cfg : EngineConfig) (explicit : List String) (force : Bool) (hit : Option String)
    (search : Option (Option Candidate)) : Applied :=
  if !cfg.autotune then { config := cfg }
  else if !cfg.backend.isGpu then { config := cfg }
  else
    let pinned := pins cfg explicit
    if tuningKeys.all fun key => (pinned.get? key).isSome then { config := cfg }
    else match hit.filter fun _ => !force with
      | some hit => { config := withTuned cfg explicit (Overrides.parse hit) }
      | none => match search with
        | none => { config := cfg }
        | some best => match tune pinned best with
          | .ok tuned =>
            { config := withTuned cfg explicit tuned, stored := some tuned.toString }
          | .error _ => { config := cfg }

/-! ## what the search spaces promise -/

/-- a number the tuner sets: neither `0`, which stands for unset, nor beyond the positions a GPU
has in flight -/
def Settable (n : Nat) : Prop := 0 < n ∧ n ≤ 512

instance : DecidablePred Settable := fun n => inferInstanceAs (Decidable (0 < n ∧ n ≤ 512))

/-- what a search space promises of the candidates it makes, given the pins -/
structure Candidate.Fits (pinned : Overrides) (cand : Candidate) : Prop where
  open_analysis : pinned.get? ANALYSIS_THREADS = none → cand.analysisThreads.isSome
  analysis : ∀ n ∈ cand.analysisThreads, Settable n
  servers : ∀ n ∈ cand.servers, Settable n
  batch : ∀ n ∈ cand.batch, Settable n

def RungFits (e : Option Nat × Option Nat) : Prop :=
  (∀ n ∈ e.1, Settable n) ∧ ∀ n ∈ e.2, Settable n

def AnalysisFits (pinned : Overrides) (threads : Option Nat) : Prop :=
  (pinned.get? ANALYSIS_THREADS = none → threads.isSome) ∧ ∀ n ∈ threads, Settable n

theorem fits_of {pinned : Overrides} {threads : Option Nat} {e : Option Nat × Option Nat}
    (ha : AnalysisFits pinned threads) (he : RungFits e) :
    Candidate.Fits pinned ⟨threads, e.1, e.2⟩ :=
  ⟨ha.1, ha.2, he.1, he.2⟩

theorem forall_mem_some {p : Nat → Prop} {n : Nat} (h : p n) : ∀ m ∈ some n, p m :=
  fun _ hm => Option.some.inj hm ▸ h

theorem forall_mem_none {p : Nat → Prop} : ∀ m ∈ (none : Option Nat), p m :=
  fun _ hm => by cases hm

namespace Thorough

theorem analysis_fits (pinned : Overrides) (depth : Nat) (backend : EngineBackend) :
    ∀ a ∈ (Space.new pinned depth backend).analysis, AnalysisFits pinned a := by
  intro a ha
  have hs : ∀ n ∈ ANALYSIS_CANDIDATES, Settable n := by decide
  simp only [Space.new] at ha
  split at ha
  · next hp =>
    obtain rfl := List.mem_singleton.mp ha
    exact ⟨fun h => absurd hp (h ▸ Bool.false_ne_true), forall_mem_none⟩
  · obtain ⟨⟨n, idx⟩, he, rfl⟩ := List.mem_map.mp ha
    have hn : n ∈ ANALYSIS_CANDIDATES := List.fst_mem_of_mem_zipIdx (List.mem_filter.mp he).1
    exact ⟨fun _ => rfl, forall_mem_some (hs n hn)⟩

/-- whatever the depth, the first number of analysis threads is a candidate -/
theorem analysis_ne (pinned : Overrides) (depth : Nat) (backend : EngineBackend) :
    (Space.new pinned depth backend).analysis ≠ [] := by
  simp only [Space.new]
  split
  · exact List.cons_ne_nil _ _
  · exact List.cons_ne_nil _ _

theorem serverBatch_fits (pinned : Overrides) (depth : Nat) (backend : EngineBackend) :
    ∀ e ∈ (Space.new pinned depth backend).serverBatch, RungFits e := by
  intro e he
  have hs : ∀ l ∈ [ROCM_SERVER_BATCH, WGPU_SERVER_BATCH], ∀ e ∈ l,
      Settable e.1 ∧ Settable e.2 := by decide
  have hpairs : ∀ p ∈ (match backend with
      | .rocm => ROCM_SERVER_BATCH
      | .wgpu | .flex | .upstream => WGPU_SERVER_BATCH), Settable p.1 ∧ Settable p.2 := by
    refine hs _ ?_
    cases backend <;> decide
  simp only [Space.new] at he
  split at he
  · obtain rfl := List.mem_singleton.mp he
    exact ⟨forall_mem_none, forall_mem_none⟩
  · obtain ⟨p, hp, rfl⟩ := List.mem_map.mp (List.mem_eraseDups.mp he)
    exact ⟨forall_mem_none, forall_mem_some (hpairs p hp).2⟩
  · obtain ⟨p, hp, rfl⟩ := List.mem_map.mp (List.mem_eraseDups.mp he)
    exact ⟨forall_mem_some (hpairs p hp).1, forall_mem_none⟩
  · obtain ⟨p, hp, rfl⟩ := List.mem_map.mp he
    exact ⟨forall_mem_some (hpairs p hp).1, forall_mem_some (hpairs p hp).2⟩

theorem first_fits (pinned : Overrides) (depth : Nat) (backend : EngineBackend) :
    (Space.new pinned depth backend).first.Fits pinned := by
  set space := Space.new pinned depth backend with hspace
  obtain ⟨a, rest, ha⟩ := List.exists_cons_of_ne_nil (analysis_ne pinned depth backend)
  have hfirst : space.first = ⟨a, (space.serverBatch.head?.getD (none, none)).1,
      (space.serverBatch.head?.getD (none, none)).2⟩ := by
    rw [Space.first, hspace, ha]
    rfl
  rw [hfirst]
  refine fits_of (analysis_fits pinned depth backend a (ha ▸ List.mem_cons_self)) ?_
  cases hh : space.serverBatch.head? with
  | none => exact ⟨forall_mem_none, forall_mem_none⟩
  | some e => exact serverBatch_fits pinned depth backend e (List.mem_of_mem_head? hh)

theorem candidates_fit {pinned : Overrides} {depth : Nat} {backend : EngineBackend}
    {cand : Candidate} (h : cand ∈ (Space.new pinned depth backend).candidates) :
    cand.Fits pinned := by
  have hfirst := first_fits pinned depth backend
  have hA : ∀ c ∈ (Space.new pinned depth backend).stageA, c.Fits pinned := by
    intro c hc
    obtain ⟨e, he, rfl⟩ := List.mem_map.mp hc
    exact fits_of ⟨hfirst.open_analysis, hfirst.analysis⟩ (serverBatch_fits _ _ _ e he)
  rcases List.mem_cons.mp h with rfl | h
  · exact hfirst
  · rcases List.mem_append.mp h with h | h
    · exact hA cand h
    · obtain ⟨leader, hl, hc⟩ := List.mem_flatMap.mp h
      obtain ⟨threads, ht, rfl⟩ := List.mem_map.mp hc
      exact fits_of (e := (leader.servers, leader.batch))
        (analysis_fits _ _ _ threads (List.mem_of_mem_drop ht))
        ⟨(hA leader hl).servers, (hA leader hl).batch⟩

end Thorough

namespace Fast

theorem inFlight_settable (gpuLanes : Option Nat) (depth : Nat) :
    Settable (inFlight gpuLanes depth) := by
  cases gpuLanes with
  | none =>
    simp only [inFlight, Settable]
    omega
  | some lanes =>
    simp only [inFlight, Settable]
    omega

theorem batchCap_settable {total : Nat} (ht : Settable total) (servers : Nat) :
    Settable (batchCap total servers) := by
  have hd : total / servers ≤ total := Nat.div_le_self total servers
  obtain ⟨h1, h2⟩ := ht
  simp only [batchCap, HEADROOM_BATCH, Settable]
  omega

theorem ladder_fits (pinned : Overrides) (depth : Nat) (backend : EngineBackend)
    (gpuLanes : Option Nat) :
    ∀ e ∈ (Space.new pinned depth backend gpuLanes).ladder, RungFits e := by
  intro e he
  have ht := inFlight_settable gpuLanes depth
  simp only [Space.new, ladderOf] at he
  split at he
  · obtain rfl := List.mem_singleton.mp he
    exact ⟨forall_mem_none, forall_mem_none⟩
  · obtain rfl := List.mem_singleton.mp he
    refine ⟨forall_mem_none, fun n hn => ?_⟩
    obtain ⟨srv, _, rfl⟩ := Option.map_eq_some_iff.mp hn
    exact batchCap_settable ht srv
  · obtain rfl := List.mem_singleton.mp he
    refine ⟨fun n hn => ?_, forall_mem_none⟩
    obtain ⟨bat, _, rfl⟩ := Option.map_eq_some_iff.mp hn
    have hd : inFlight gpuLanes depth / bat ≤ inFlight gpuLanes depth := Nat.div_le_self _ _
    obtain ⟨h1, h2⟩ := ht
    show 0 < max _ 1 ∧ max _ 1 ≤ 512
    omega
  · obtain ⟨srv, hs, rfl⟩ := List.mem_map.mp he
    have hl : ∀ n ∈ SERVER_LADDER, Settable n := by decide
    exact ⟨forall_mem_some (hl srv (List.mem_filter.mp hs).1),
      forall_mem_some (batchCap_settable ht srv)⟩

theorem candidate_fits {pinned : Overrides} {depth : Nat} {backend : EngineBackend}
    {gpuLanes : Option Nat} {idx : Nat} {cand : Candidate}
    (h : (Space.new pinned depth backend gpuLanes).candidate idx = some cand) :
    cand.Fits pinned := by
  obtain ⟨e, he, rfl⟩ := Option.map_eq_some_iff.mp h
  refine fits_of ?_ (ladder_fits _ _ _ _ e (List.mem_of_getElem? he))
  simp only [Space.new]
  split_ifs with hp
  · exact ⟨fun _ => rfl, forall_mem_some (inFlight_settable gpuLanes depth)⟩
  · exact ⟨fun hn => absurd (hn ▸ rfl) hp, forall_mem_none⟩

end Fast

/-- **Every candidate** sets numbers the fields can hold, and the analysis threads unless they
are pinned. -/
theorem Produced.fits {pinned : Overrides} {backend : EngineBackend} {cand : Candidate}
    (h : Produced pinned backend cand) : cand.Fits pinned := by
  cases h with
  | thorough depth h => exact Thorough.candidates_fit h
  | fast depth gpuLanes idx h => exact Fast.candidate_fits h

/-! ## the fields -/

theorem parseU32_toString {n : Nat} (h : Settable n) : parseU32 (toString n) = some n := by
  have h1 : n < USIZE_RANGE := lt_of_le_of_lt h.2 (by decide)
  have h2 : n < U32_RANGE := lt_of_le_of_lt h.2 (by decide)
  rw [parseU32, parseUsize_toString h1, Option.filter_some, if_pos (decide_eq_true h2)]

theorem numeric_eq (cfg : EngineConfig) :
    cfg.numeric = [ANALYSIS_THREADS, SEARCH_THREADS, BATCH_SIZE, SERVER_THREADS].map
      fun key => (key, fieldValue cfg key) := rfl

theorem fieldValue_eq_zero {cfg : EngineConfig} {key : String} (h : key ∉ tuningKeys) :
    fieldValue cfg key = 0 := by
  simp only [tuningKeys, List.mem_cons, List.not_mem_nil, or_false, not_or] at h
  rw [fieldValue, if_neg h.1, if_neg h.2.1, if_neg h.2.2.1, if_neg h.2.2.2]

theorem mem_numeric {cfg : EngineConfig} {e : String × Nat} :
    e ∈ cfg.numeric ↔ e.1 ∈ tuningKeys ∧ e.2 = fieldValue cfg e.1 := by
  have hk : ∀ key, key ∈ [ANALYSIS_THREADS, SEARCH_THREADS, BATCH_SIZE, SERVER_THREADS]
      ↔ key ∈ tuningKeys := by
    intro key
    simp only [tuningKeys, List.mem_cons, List.not_mem_nil, or_false]
    rw [or_comm (a := key = BATCH_SIZE)]
  rw [numeric_eq, List.mem_map]
  constructor
  · rintro ⟨key, hm, rfl⟩
    exact ⟨(hk key).mp hm, rfl⟩
  · rintro ⟨hm, he⟩
    exact ⟨e.1, (hk _).mpr hm, Prod.ext rfl he.symm⟩

def shown (n : Nat) : Option String := if n > 0 then some (toString n) else none

theorem overlay_printed (cfg : EngineConfig) (key : String) :
    overlay cfg.printed key = shown (fieldValue cfg key) := by
  have hnodup : (cfg.printed.map Prod.fst).Nodup := by
    have hs : (cfg.printed.map Prod.fst).Sublist (cfg.numeric.map Prod.fst) := by
      rw [EngineConfig.printed, List.map_map]
      exact List.Sublist.map Prod.fst List.filter_sublist
    refine hs.nodup ?_
    rw [numeric_eq, List.map_map]
    show [ANALYSIS_THREADS, SEARCH_THREADS, BATCH_SIZE, SERVER_THREADS].Nodup
    decide
  refine Option.ext fun v => ?_
  rw [overlay_nodup hnodup, EngineConfig.printed, List.mem_map, shown]
  constructor
  · rintro ⟨⟨k, n⟩, hm, he⟩
    obtain ⟨rfl, rfl⟩ := Prod.mk.inj he
    obtain ⟨hn, hp⟩ := List.mem_filter.mp hm
    obtain rfl : n = fieldValue cfg k := (mem_numeric.mp hn).2
    exact if_pos (of_decide_eq_true hp)
  · intro hv
    obtain ⟨hp, hv⟩ := Option.ite_none_right_eq_some.mp hv
    obtain rfl := Option.some.inj hv
    have hk : key ∈ tuningKeys := by
      by_contra hk
      rw [fieldValue_eq_zero hk] at hp
      omega
    exact ⟨(key, fieldValue cfg key),
      List.mem_filter.mpr ⟨mem_numeric.mpr ⟨hk, rfl⟩, decide_eq_true hp⟩, rfl⟩

theorem fieldMut_isSome (cfg : EngineConfig) {key : String} (h : key ∈ tuningKeys) :
    ∃ slot, fieldMut cfg key = some slot := by
  simp only [tuningKeys, List.mem_cons, List.not_mem_nil, or_false] at h
  rcases h with rfl | rfl | rfl | rfl
  · exact ⟨_, rfl⟩
  · exact ⟨_, rfl⟩
  · exact ⟨_, rfl⟩
  · exact ⟨_, rfl⟩

/-- **A write to a field** changes the number of its key and nothing else that is printed. -/
theorem fieldMut_spec {cfg : EngineConfig} {key : String} {slot : Nat → EngineConfig}
    (h : fieldMut cfg key = some slot) (n : Nat) :
    (∀ x, fieldValue (slot n) x = if key = x then n else fieldValue cfg x) ∧
      (slot n).precision = cfg.precision ∧ (slot n).overrideConfig = cfg.overrideConfig := by
  unfold fieldMut at h
  split_ifs at h with h1 h2 h3 h4
  · cases h
    refine ⟨fun x => ?_, rfl, rfl⟩
    by_cases hx : key = x
    · simp [fieldValue, ← hx, h1]
    · simp [fieldValue, hx, ← h1, Ne.symm hx]
  · cases h
    refine ⟨fun x => ?_, rfl, rfl⟩
    by_cases hx : key = x
    · simp [fieldValue, ← hx, h1, ← h2]
    · simp [fieldValue, hx, ← h2, Ne.symm hx]
  · cases h
    refine ⟨fun x => ?_, rfl, rfl⟩
    by_cases hx : key = x
    · simp [fieldValue, ← hx, h1, h2, ← h3]
    · simp [fieldValue, hx, ← h3, Ne.symm hx]
  · cases h
    refine ⟨fun x => ?_, rfl, rfl⟩
    by_cases hx : key = x
    · simp [fieldValue, ← hx, h1, h2, h3, ← h4]
    · simp [fieldValue, hx, ← h4, Ne.symm hx]

/-! ## pins -/

/-- the value a key is pinned to: `override_config`'s, else that of the explicit non-zero field -/
def Pinned (cfg : EngineConfig) (explicit : List String) (key value : String) : Prop :=
  settings (some cfg.overrideConfig) key = some value ∨
    settings (some cfg.overrideConfig) key = none ∧
      ∃ field ∈ explicit, (field, key) ∈ TUNING_FIELDS ∧ fieldValue cfg key > 0 ∧
        value = toString (fieldValue cfg key)

def explicitPairs (cfg : EngineConfig) (explicit : List String) : List (String × String) :=
  (TUNING_FIELDS.filter fun e => decide (e.1 ∈ explicit ∧ fieldValue cfg e.2 > 0)).map
    fun e => (e.2, toString (fieldValue cfg e.2))

theorem mem_explicitPairs {cfg : EngineConfig} {explicit : List String} {key value : String} :
    (key, value) ∈ explicitPairs cfg explicit ↔
      ∃ field ∈ explicit, (field, key) ∈ TUNING_FIELDS ∧ fieldValue cfg key > 0 ∧
        value = toString (fieldValue cfg key) := by
  rw [explicitPairs, List.mem_map]
  constructor
  · rintro ⟨⟨field, k⟩, hm, he⟩
    obtain ⟨rfl, rfl⟩ := Prod.mk.inj he
    obtain ⟨hf, hp⟩ := List.mem_filter.mp hm
    obtain ⟨hx, hn⟩ := of_decide_eq_true hp
    exact ⟨field, hx, hf, hn, rfl⟩
  · rintro ⟨field, hx, hf, hn, rfl⟩
    exact ⟨(field, key), List.mem_filter.mpr ⟨hf, decide_eq_true ⟨hx, hn⟩⟩, rfl⟩

theorem explicitPairs_nodup (cfg : EngineConfig) (explicit : List String) :
    ((explicitPairs cfg explicit).map Prod.fst).Nodup := by
  have hs : ((explicitPairs cfg explicit).map Prod.fst).Sublist (TUNING_FIELDS.map Prod.snd) := by
    rw [explicitPairs, List.map_map]
    exact List.Sublist.map Prod.snd List.filter_sublist
  refine hs.nodup ?_
  decide

theorem pins_eq (cfg : EngineConfig) (explicit : List String) :
    pins cfg explicit = (SeqMap.empty.extend (explicitPairs cfg explicit)).extend
      (Overrides.parse cfg.overrideConfig).entries := by
  have hf : SeqMap.empty.extend (explicitPairs cfg explicit)
      = TUNING_FIELDS.foldl (fun (pinned : Overrides) e =>
        if e.1 ∈ explicit ∧ fieldValue cfg e.2 > 0
        then pinned.set e.2 (toString (fieldValue cfg e.2)) else pinned) SeqMap.empty := by
    rw [explicitPairs, SeqMap.extend, List.foldl_map, List.foldl_filter]
    simp only [decide_eq_true_eq]
  rw [hf]
  rfl

theorem get_pins_or (cfg : EngineConfig) (explicit : List String) (key : String) :
    (pins cfg explicit).get? key = (settings (some cfg.overrideConfig) key).or
      (overlay (explicitPairs cfg explicit) key) := by
  have he : (SeqMap.empty : Overrides).get? key = none := rfl
  rw [pins_eq, SeqMap.get?_extend, SeqMap.get?_extend, he, Option.or_none, ← SeqMap.get?_eq,
    Overrides.get_parse]

/-- **The pins** are `override_config`'s pairs and the explicit fields that are not `0`. -/
theorem get_pins {cfg : EngineConfig} {explicit : List String} {key value : String} :
    (pins cfg explicit).get? key = some value ↔ Pinned cfg explicit key value := by
  rw [get_pins_or, Option.or_eq_some_iff, overlay_nodup (explicitPairs_nodup cfg explicit),
    mem_explicitPairs]
  rfl

theorem tuningField_key {field key : String} (h : (field, key) ∈ TUNING_FIELDS) :
    key ∈ tuningKeys := by
  have hk : ∀ e ∈ TUNING_FIELDS, e.2 ∈ tuningKeys := by decide
  exact hk _ h

theorem pins_plain {cfg : EngineConfig} {explicit : List String} :
    ∀ e ∈ (pins cfg explicit).entries, Overrides.Plain e := by
  rintro ⟨key, value⟩ he
  rcases get_pins.mp (SeqMap.get?_eq_some.mpr he) with h | ⟨_, field, _, hf, _, rfl⟩
  · exact Overrides.pairsOf_plain (overlay_mem h)
  · exact tuning_plain (tuningField_key hf) _

/-! ## tuned keys -/

def candidatePairs (pinned : Overrides) (cand : Candidate) : List (String × String) :=
  (if (pinned.get? SEARCH_THREADS).isNone then [(SEARCH_THREADS, "1")] else []) ++
    cand.analysisThreads.toList.map (fun n => (ANALYSIS_THREADS, toString n)) ++
    cand.servers.toList.map (fun n => (SERVER_THREADS, toString n)) ++
    cand.batch.toList.map (fun n => (BATCH_SIZE, toString n))

theorem tunedKeys_eq (pinned : Overrides) (cand : Candidate) :
    tunedKeys pinned cand = (SeqMap.empty.extend (candidatePairs pinned cand)).retain
      fun key => (pinned.get? key).isNone := by
  obtain ⟨a, s, b⟩ := cand
  unfold tunedKeys candidatePairs
  split_ifs <;> cases a <;> cases s <;> cases b <;> rfl

theorem get_tunedKeys (pinned : Overrides) (cand : Candidate) (key : String) :
    (tunedKeys pinned cand).get? key
      = if (pinned.get? key).isNone then overlay (candidatePairs pinned cand) key else none := by
  have he : (SeqMap.empty : Overrides).get? key = none := rfl
  rw [tunedKeys_eq, SeqMap.get?_retain, SeqMap.get?_extend, he, Option.or_none]

/-- a pair of a tuning key and a number its field holds -/
def Tunes (e : String × String) : Prop :=
  e.1 ∈ tuningKeys ∧ ∃ n, Settable n ∧ e.2 = toString n

theorem tunes_of {key : String} {n : Nat} (hk : key ∈ tuningKeys) (hn : Settable n) :
    Tunes (key, toString n) :=
  ⟨hk, n, hn, rfl⟩

theorem candidatePairs_tune {pinned : Overrides} {cand : Candidate} (h : cand.Fits pinned) :
    ∀ e ∈ candidatePairs pinned cand, Tunes e := by
  intro e he
  rcases List.mem_append.mp he with he | he
  · rcases List.mem_append.mp he with he | he
    · rcases List.mem_append.mp he with he | he
      · split_ifs at he
        · obtain rfl := List.mem_singleton.mp he
          exact tunes_of (n := 1) (by decide) (by decide)
        · cases he
      · obtain ⟨n, hn, rfl⟩ := List.mem_map.mp he
        exact tunes_of (by decide) (h.analysis n (Option.mem_toList.mp hn))
    · obtain ⟨n, hn, rfl⟩ := List.mem_map.mp he
      exact tunes_of (by decide) (h.servers n (Option.mem_toList.mp hn))
  · obtain ⟨n, hn, rfl⟩ := List.mem_map.mp he
    exact tunes_of (by decide) (h.batch n (Option.mem_toList.mp hn))

theorem tunedKeys_tune {pinned : Overrides} {cand : Candidate} (h : cand.Fits pinned) :
    ∀ e ∈ (tunedKeys pinned cand).entries, Tunes e := by
  rintro ⟨key, value⟩ he
  have hg := SeqMap.get?_eq_some.mpr he
  rw [get_tunedKeys] at hg
  split_ifs at hg
  exact candidatePairs_tune h _ (overlay_mem hg)

theorem Tunes.plain {e : String × String} (h : Tunes e) : Overrides.Plain e := by
  obtain ⟨key, value⟩ := e
  obtain ⟨hk, n, _, hv⟩ := h
  obtain rfl : value = toString n := hv
  exact tuning_plain hk n

theorem trialOverrides_plain {cfg : EngineConfig} {explicit : List String} {cand : Candidate}
    (h : cand.Fits (pins cfg explicit)) :
    ∀ e ∈ (trialOverrides (pins cfg explicit) cand).entries, Overrides.Plain e := by
  rintro ⟨key, value⟩ he
  have hg := SeqMap.get?_eq_some.mpr he
  rw [trialOverrides, SeqMap.get?_fill] at hg
  rcases Option.or_eq_some_iff.mp hg with hg | ⟨_, hg⟩
  · exact pins_plain _ (SeqMap.get?_eq_some.mp hg)
  · exact (tunedKeys_tune h _ (SeqMap.get?_eq_some.mp hg)).plain

/-! ## what is launched -/

theorem settings_toString {overrides : Overrides} (h : ∀ e ∈ overrides.entries, Overrides.Plain e)
    (key : String) : settings (some overrides.toString) key = overrides.get? key := by
  rw [SeqMap.get?_eq, settings, Overrides.pairsOf_toString h]

/-- the configuration of a trial shows its overrides over the precision, and no field -/
theorem settings_launchCfg (cfg : EngineConfig) {overrides : Overrides}
    (h : ∀ e ∈ overrides.entries, Overrides.Plain e) (key : String) :
    settings (launchCfg cfg overrides).katagoOverrides key
      = (overrides.get? key).or (overlay cfg.precision key) := by
  have hn : fieldValue (launchCfg cfg overrides) key = 0 := by
    simp [fieldValue, launchCfg]
  have hs : settings (some (launchCfg cfg overrides).overrideConfig) key = overrides.get? key :=
    settings_toString h key
  have hp : overlay (launchCfg cfg overrides).precision key = overlay cfg.precision key := rfl
  rw [settings_katagoOverrides, hs, hp, overlay_printed, hn]
  show _ = _
  rw [shown, if_neg (lt_irrefl 0), Option.or_none]

theorem foldl_zeroField {explicit : List String} {inOverride : Overrides} {key : String}
    (hk : inOverride.get? key = none) (l : List (String × String)) (cfg : EngineConfig) :
    fieldValue (l.foldl (zeroField explicit inOverride) cfg) key = fieldValue cfg key ∧
      (l.foldl (zeroField explicit inOverride) cfg).precision = cfg.precision := by
  induction l generalizing cfg with
  | nil => exact ⟨rfl, rfl⟩
  | cons e l ih =>
    obtain ⟨hv, hp⟩ := ih (zeroField explicit inOverride cfg e)
    have hz : fieldValue (zeroField explicit inOverride cfg e) key = fieldValue cfg key ∧
        (zeroField explicit inOverride cfg e).precision = cfg.precision := by
      unfold zeroField
      split_ifs with hc
      · cases hm : fieldMut cfg e.2 with
        | none => exact ⟨rfl, rfl⟩
        | some slot =>
          obtain ⟨h1, h2, _⟩ := fieldMut_spec hm 0
          have hne : e.2 ≠ key := by
            rintro rfl
            rw [hk] at hc
            exact Bool.false_ne_true hc.2
          exact ⟨(h1 key).trans (if_neg hne), h2⟩
      · exact ⟨rfl, rfl⟩
    exact ⟨hv.trans hz.1, hp.trans hz.2⟩

/-- **The tuned keys** all go into their fields: a field holds the last number tuned for it, else
what it held. -/
theorem foldl_applyKey {l : List (String × String)} (hl : ∀ e ∈ l, Tunes e)
    (st : EngineConfig × Overrides) :
    (∀ key, shown (fieldValue (l.foldl applyKey st).1 key)
        = (overlay l key).or (shown (fieldValue st.1 key))) ∧
      (l.foldl applyKey st).1.precision = st.1.precision ∧ (l.foldl applyKey st).2 = st.2 := by
  induction l generalizing st with
  | nil => exact ⟨fun _ => rfl, rfl, rfl⟩
  | cons e l ih =>
    obtain ⟨hk, n, hn, hv⟩ := hl e List.mem_cons_self
    obtain ⟨slot, hs⟩ := fieldMut_isSome st.1 hk
    have hstep : applyKey st e = (slot n, st.2) := by
      rw [applyKey, hs, hv, parseU32_toString hn]
    obtain ⟨h1, h2, h3⟩ := ih (fun x hx => hl x (List.mem_cons_of_mem e hx)) (slot n, st.2)
    obtain ⟨hf, hp, _⟩ := fieldMut_spec hs n
    rw [List.foldl_cons, hstep]
    refine ⟨fun key => ?_, h2.trans hp, h3⟩
    rw [h1, overlay_cons, Option.or_assoc, hf]
    by_cases hx : e.1 = key
    · rw [if_pos hx, if_pos hx, shown, if_pos hn.1, hv, Option.some_or]
    · rw [if_neg hx, if_neg hx, Option.none_or]

/-- **What is launched** after tuning: `override_config`, the precision, the tuned keys and the
fields that were not tuned, an earlier one over a later. -/
theorem settings_withTuned (cfg : EngineConfig) (explicit : List String) {tuned : Overrides}
    (h : ∀ e ∈ tuned.entries, Tunes e) (key : String) :
    settings (withTuned cfg explicit tuned).katagoOverrides key
      = (settings (some cfg.overrideConfig) key).or ((overlay cfg.precision key).or
          ((tuned.get? key).or (shown (fieldValue cfg key)))) := by
  set inOverride := Overrides.parse cfg.overrideConfig with hin
  set zeroed := TUNING_FIELDS.foldl (zeroField explicit inOverride) cfg with hzeroed
  obtain ⟨hf, hp, he⟩ := foldl_applyKey h (zeroed, inOverride)
  have hraw : settings (some (withTuned cfg explicit tuned).overrideConfig) key
      = settings (some cfg.overrideConfig) key := by
    have ho : (withTuned cfg explicit tuned).overrideConfig = inOverride.toString :=
      congrArg Overrides.toString he
    rw [ho, settings_toString Overrides.parse_plain, Overrides.get_parse]
  rw [settings_katagoOverrides, hraw]
  cases hr : settings (some cfg.overrideConfig) key with
  | some v => rfl
  | none =>
    have hk : inOverride.get? key = none := by
      rw [hin, Overrides.get_parse, hr]
    obtain ⟨hz, hzp⟩ := foldl_zeroField hk TUNING_FIELDS cfg
    have hprec : (withTuned cfg explicit tuned).precision = cfg.precision := hp.trans hzp
    have hprint : overlay (withTuned cfg explicit tuned).printed key
        = (tuned.get? key).or (shown (fieldValue cfg key)) := by
      rw [overlay_printed, SeqMap.get?_eq, ← hz]
      exact hf key
    rw [hprec, hprint]

/-! ## launched as measured -/

/-- every pinned key has its pinned value in what a configuration launches the engine with -/
def Keeps (cfg : EngineConfig) (explicit : List String) (launched : EngineConfig) : Prop :=
  ∀ key value, Pinned cfg explicit key value →
    settings launched.katagoOverrides key = some value

theorem precision_eq_none {cfg : EngineConfig} {key : String} (h : key ∈ tuningKeys) :
    overlay cfg.precision key = none := by
  refine overlay_eq_none.mpr fun hm => ?_
  obtain ⟨e, he, rfl⟩ := List.mem_map.mp hm
  unfold EngineConfig.precision at he
  split_ifs at he
  · obtain rfl := List.mem_singleton.mp he
    exact absurd h (by decide)
  · cases he

theorem shown_of_pinned {cfg : EngineConfig} {explicit : List String} {key value : String}
    (h : (key, value) ∈ explicitPairs cfg explicit) :
    shown (fieldValue cfg key) = some value ∧ key ∈ tuningKeys := by
  obtain ⟨field, _, hf, hn, rfl⟩ := mem_explicitPairs.mp h
  exact ⟨if_pos hn, tuningField_key hf⟩

theorem given_keeps (cfg : EngineConfig) (explicit : List String) : Keeps cfg explicit cfg := by
  intro key value hp
  rw [settings_katagoOverrides]
  rcases hp with hr | ⟨hr, hx⟩
  · rw [hr, Option.some_or]
  · obtain ⟨hs, hk⟩ := shown_of_pinned (mem_explicitPairs.mpr hx)
    rw [hr, precision_eq_none hk, overlay_printed, hs, Option.none_or, Option.none_or]

/-- a key neither pinned nor tuned is in no field that is printed -/
theorem untuned_zero {cfg : EngineConfig} {explicit : List String} {cand : Candidate}
    (hservers : "nn_server_threads" ∉ explicit → cfg.nnServerThreads = 0)
    (hbatch : "nn_max_batch_size" ∉ explicit → cfg.nnMaxBatchSize = 0)
    (hfit : cand.Fits (pins cfg explicit)) {key : String} (hk : key ∈ tuningKeys)
    (hpin : (pins cfg explicit).get? key = none)
    (htuned : (tunedKeys (pins cfg explicit) cand).get? key = none) :
    fieldValue cfg key = 0 := by
  have hcand : ∀ value, (key, value) ∉ candidatePairs (pins cfg explicit) cand := by
    intro value hm
    rw [get_tunedKeys, if_pos (Option.isNone_iff_eq_none.mpr hpin)] at htuned
    exact overlay_eq_none.mp htuned (List.mem_map_of_mem hm)
  -- an explicit field that is not `0` would be pinned
  have hfield : ∀ field, (field, key) ∈ TUNING_FIELDS → field ∈ explicit →
      fieldValue cfg key = 0 := by
    intro field hf hx
    rw [get_pins_or, Option.or_eq_none_iff] at hpin
    by_contra hn
    exact overlay_eq_none.mp hpin.2 (List.mem_map_of_mem
      (mem_explicitPairs.mpr ⟨field, hx, hf, Nat.pos_of_ne_zero hn, rfl⟩))
  simp only [tuningKeys, List.mem_cons, List.not_mem_nil, or_false] at hk
  rcases hk with rfl | rfl | rfl | rfl
  · obtain ⟨n, hn⟩ := Option.isSome_iff_exists.mp (hfit.open_analysis hpin)
    refine absurd ?_ (hcand (toString n))
    simp [candidatePairs, hn]
  · refine absurd ?_ (hcand "1")
    simp [candidatePairs, hpin]
  · by_cases hx : "nn_server_threads" ∈ explicit
    · exact hfield _ (by decide) hx
    · exact hservers hx
  · by_cases hx : "nn_max_batch_size" ∈ explicit
    · exact hfield _ (by decide) hx
    · exact hbatch hx

theorem settings_withTuned_eq {cfg : EngineConfig} {explicit : List String} {cand : Candidate}
    (hservers : "nn_server_threads" ∉ explicit → cfg.nnServerThreads = 0)
    (hbatch : "nn_max_batch_size" ∉ explicit → cfg.nnMaxBatchSize = 0)
    (hfit : cand.Fits (pins cfg explicit)) (key : String) :
    settings (withTuned cfg explicit (tunedKeys (pins cfg explicit) cand)).katagoOverrides key
      = settings (launchCfg cfg (trialOverrides (pins cfg explicit) cand)).katagoOverrides key := by
  rw [settings_withTuned cfg explicit (tunedKeys_tune hfit),
    settings_launchCfg cfg (trialOverrides_plain hfit), trialOverrides, SeqMap.get?_fill]
  have hpins := get_pins_or cfg explicit key
  cases hr : settings (some cfg.overrideConfig) key with
  | some v =>
    rw [hr] at hpins
    rw [hpins]
    rfl
  | none =>
    rw [hr, Option.none_or] at hpins
    rw [Option.none_or]
    by_cases hk : key ∈ tuningKeys
    · rw [precision_eq_none hk, Option.none_or, Option.or_none]
      cases hp : (pins cfg explicit).get? key with
      | some v =>
        have ht : (tunedKeys (pins cfg explicit) cand).get? key = none := by
          rw [get_tunedKeys, hp]
          rfl
        have hs := (shown_of_pinned (overlay_mem (hpins.symm.trans hp))).1
        rw [ht, hs, Option.none_or, Option.some_or]
      | none =>
        cases ht : (tunedKeys (pins cfg explicit) cand).get? key with
        | some v => rfl
        | none =>
          rw [untuned_zero hservers hbatch hfit hk hp ht]
          rfl
    · -- only the precision is printed at any other key
      have ht : (tunedKeys (pins cfg explicit) cand).get? key = none := by
        refine SeqMap.get?_eq_none.mpr fun hm => hk ?_
        obtain ⟨e, he, rfl⟩ := List.mem_map.mp hm
        exact (tunedKeys_tune hfit e he).1
      have hp : (pins cfg explicit).get? key = none := by
        rw [hpins]
        refine overlay_eq_none.mpr fun hm => hk ?_
        obtain ⟨⟨k, v⟩, he, rfl⟩ := List.mem_map.mp hm
        exact (shown_of_pinned he).2
      rw [ht, hp, fieldValue_eq_zero hk, Option.none_or, Option.none_or, shown,
        if_neg (lt_irrefl 0), Option.or_none, Option.none_or]

theorem launchCfg_keeps {cfg : EngineConfig} {explicit : List String} {cand : Candidate}
    (hfit : cand.Fits (pins cfg explicit)) :
    Keeps cfg explicit (launchCfg cfg (trialOverrides (pins cfg explicit) cand)) := by
  intro key value hp
  rw [settings_launchCfg cfg (trialOverrides_plain hfit), trialOverrides, SeqMap.get?_fill,
    get_pins.mpr hp]
  rfl

/-- the paths on which the configuration comes back unchanged -/
inductive Untouched (cfg : EngineConfig) (explicit : List String) (force : Bool)
    (hit : Option String) (search : Option (Option Candidate)) : Prop where
  | disabled (h : cfg.autotune = false)
  | cpu (h : cfg.backend.isGpu = false)
  | allPinned (h : ∀ key ∈ tuningKeys, ((pins cfg explicit).get? key).isSome)
  | timedOut (h : force = true ∨ hit = none) (hs : search = none)
  | failed (h : force = true ∨ hit = none) (hs : search = some none)

theorem filter_miss {force : Bool} {hit : Option String} (h : force = true ∨ hit = none) :
    (hit.filter fun _ => !force) = none := by
  rcases h with rfl | rfl
  · cases hit <;> rfl
  · rfl

theorem apply_untouched {cfg : EngineConfig} {explicit : List String} {force : Bool}
    {hit : Option String} {search : Option (Option Candidate)}
    (h : Untouched cfg explicit force hit search) :
    (apply cfg explicit force hit search).config = cfg := by
  simp only [apply]
  split_ifs with h1 h2 h3
  · rfl
  · rfl
  · rfl
  · cases h with
    | disabled h => simp [h] at h1
    | cpu h => simp [h] at h2
    | allPinned h => exact absurd (List.all_eq_true.mpr h) h3
    | timedOut h hs => rw [filter_miss h, hs]
    | failed h hs => rw [filter_miss h, hs]; rfl

theorem apply_recalled {cfg : EngineConfig} {explicit : List String} {cand : Candidate}
    (hfit : cand.Fits (pins cfg explicit)) {force : Bool} {hit : Option String} {text : String}
    (search : Option (Option Candidate))
    (h : (apply cfg explicit force hit (some (some cand))).stored = some text) :
    (apply cfg explicit false (some text) search).config
      = (apply cfg explicit force hit (some (some cand))).config := by
  have hplain : ∀ e ∈ (tunedKeys (pins cfg explicit) cand).entries, Overrides.Plain e :=
    fun e he => (tunedKeys_tune hfit e he).plain
  simp only [apply] at h ⊢
  split_ifs at h ⊢
  cases hh : hit.filter fun _ => !force with
  | some found =>
    rw [hh] at h
    cases h
  | none =>
    rw [hh] at h
    obtain rfl : (tunedKeys (pins cfg explicit) cand).toString = text := Option.some.inj h
    show withTuned cfg explicit (Overrides.parse _) = withTuned cfg explicit _
    rw [Overrides.parse_toString hplain]

/-- whether anything is tuned: a GPU backend, and a key that is not pinned -/
def Tunable (cfg : EngineConfig) (explicit : List String) : Prop :=
  cfg.autotune = true ∧ cfg.backend.isGpu = true ∧
    ∃ key ∈ tuningKeys, (pins cfg explicit).get? key = none

/-- **A search that found a winner**: its keys are launched, and printed into the cache. -/
theorem apply_tuned {cfg : EngineConfig} {explicit : List String} (h : Tunable cfg explicit)
    {force : Bool} {hit : Option String} (hmiss : force = true ∨ hit = none) (cand : Candidate) :
    apply cfg explicit force hit (some (some cand))
      = { config := withTuned cfg explicit (tunedKeys (pins cfg explicit) cand)
          stored := some (tunedKeys (pins cfg explicit) cand).toString } := by
  obtain ⟨hon, hgpu, key, hk, hopen⟩ := h
  have hall : ¬ (tuningKeys.all fun key => ((pins cfg explicit).get? key).isSome) = true := by
    intro hall
    have hsome := List.all_eq_true.mp hall key hk
    rw [hopen] at hsome
    cases hsome
  have hnot : ¬ (!true) = true := by decide
  simp only [apply]
  rw [hon, hgpu, if_neg hnot, if_neg hnot, if_neg hall, filter_miss hmiss]
  rfl

/-- what is asked of a candidate: its settings are launched as they were measured, with the pins
kept, and a run that chose it can be recalled; where nothing is tuned the pins are kept too -/
structure LaunchedAsMeasured (cfg : EngineConfig) (explicit : List String) (cand : Candidate) :
    Prop where
  measured : ∀ key,
    settings (withTuned cfg explicit (tunedKeys (pins cfg explicit) cand)).katagoOverrides key
      = settings (launchCfg cfg (trialOverrides (pins cfg explicit) cand)).katagoOverrides key
  pinned : Keeps cfg explicit (withTuned cfg explicit (tunedKeys (pins cfg explicit) cand))
  unchanged : ∀ force hit search, Untouched cfg explicit force hit search →
    (apply cfg explicit force hit search).config = cfg ∧
      Keeps cfg explicit (apply cfg explicit force hit search).config
  launched : Tunable cfg explicit → ∀ force hit, force = true ∨ hit = none →
    (apply cfg explicit force hit (some (some cand))).config
        = withTuned cfg explicit (tunedKeys (pins cfg explicit) cand) ∧
      (apply cfg explicit force hit (some (some cand))).stored
        = some (tunedKeys (pins cfg explicit) cand).toString
  recalled : ∀ force hit search text,
    (apply cfg explicit force hit (some (some cand))).stored = some text →
    (apply cfg explicit false (some text) search).config
      = (apply cfg explicit force hit (some (some cand))).config

/-- **Launched as measured.**  With the two fields that have no built-in default at `0` unless
they are explicit, every candidate of either search is launched with the settings its trial ran
with. -/
theorem launched_as_measured (cfg : EngineConfig) (explicit : List String) (cand : Candidate)
    (hservers : "nn_server_threads" ∉ explicit → cfg.nnServerThreads = 0)
    (hbatch : "nn_max_batch_size" ∉ explicit → cfg.nnMaxBatchSize = 0)
    (hcand : Produced (pins cfg explicit) cfg.backend cand) :
    LaunchedAsMeasured cfg explicit cand := by
  have hfit := hcand.fits
  have hmeasured := settings_withTuned_eq hservers hbatch hfit
  refine ⟨hmeasured, fun key value hp => ?_, fun force hit search hu => ?_,
    fun ht force hit hmiss => ?_, ?_⟩
  · rw [hmeasured]
    exact launchCfg_keeps hfit key value hp
  · have hc := apply_untouched hu
    refine ⟨hc, ?_⟩
    rw [hc]
    exact given_keeps cfg explicit
  · rw [apply_tuned ht hmiss cand]
    exact ⟨rfl, rfl⟩
  · exact fun force hit search text hs => apply_recalled hfit search hs

/-- a GPU with its analysis threads given explicitly and its server threads through
`override_config` -/
def rocmConfig : EngineConfig where
  backend := .rocm
  model := "kata1-b18c384nbt.bpk"
  maxVisits := 500
  analysisPvLen := 8
  includeOwnership := true
  includeOwnershipStdev := true
  includePolicy := true
  humanModel := ""
  topK := 5
  defaultKomi := 13 / 2
  defaultBoardSize := 19
  analysisThreads := 128
  overrideConfig := "numNNServerThreadsPerModel = 4,logDir=x"
  screenVisits := 0

theorem launched_as_measured_rocm :
    LaunchedAsMeasured rocmConfig ["analysis_threads"] ⟨none, none, some 96⟩ :=
  launched_as_measured rocmConfig ["analysis_threads"] ⟨none, none, some 96⟩ (fun _ => rfl)
    (fun _ => rfl) (.thorough 460 (by decide +kernel))

end Autotune
end KatagoWs
