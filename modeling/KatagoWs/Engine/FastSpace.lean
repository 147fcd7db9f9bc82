import KatagoWs.Engine.Autotune
import KatagoWs.Lib.Word

/-!
# The fast search space, step by step

`Space.new` as the machine computes it: every division, difference and shift of `u32` may fail,
and a failure is a panic (`Space.new?`).

* `floorPow2?_eq`       the highest bit is found without a failure, and is the greatest power
                        of two not above the number;
* `new?_eq`             no step fails, whatever the pins, the queue depth and the GPU;
* `Space.WellFormed`    what the search relies on, of every space (`space_wellFormed`).
-/

namespace KatagoWs
namespace Autotune
namespace Fast
open Lib

/-! ## the steps -/

def floorPow2? (num : Nat) : Option Nat :=
  if num = 0 then some 0
  else do
    let shift ← sub? 31 (leadingZeros num 32)
    shl? 32 1 shift

def batchCap? (total servers : Nat) : Option Nat := do
  let share ← div? total servers
  return max (max share (min HEADROOM_BATCH total)) 1

def inFlight? (gpuLanes : Option Nat) (depth : Nat) : Option Nat := do
  let want ← match gpuLanes with
    | none => some 256
    | some lanes => do
      let positions ← div? lanes 16
      let floor ← floorPow2? positions
      pure (min (max floor 128) 512)
  let floor ← floorPow2? (min depth (U32_RANGE - 1))
  return min want (max floor 64)

def rungs? (total : Nat) : List Nat → Option (List (Option Nat × Option Nat))
  | [] => some []
  | srv :: rest => do
    -- a single server is kept without a look at its share
    let kept ← if srv = 1 then some true
      else (div? total srv).map fun share => decide (share ≥ MIN_BATCH)
    if kept then do
      let cap ← batchCap? total srv
      let more ← rungs? total rest
      return (some srv, some cap) :: more
    else rungs? total rest

def ladder? (total : Nat) (servers batch : Option (Option Nat)) :
    Option (List (Option Nat × Option Nat)) :=
  match servers, batch with
  | some _, some _ => some [(none, none)]
  | some servers, none =>
    match servers.filter (· > 0) with
    | none => some [(none, none)]
    | some srv => do
      let cap ← batchCap? total srv
      return [(none, some cap)]
  | none, some batch =>
    match batch.filter (· > 0) with
    | none => some [(none, none)]
    | some bat => do
      let share ← div? total bat
      return [(some (max share 1), none)]
  | none, none => rungs? total SERVER_LADDER

def Space.new? (pinned : Overrides) (depth : Nat) (backend : EngineBackend)
    (gpuLanes : Option Nat) : Option Space := do
  let total ← inFlight? gpuLanes depth
  let analysisThreads := if (pinned.get? ANALYSIS_THREADS).isNone then some total else none
  let ladder ← ladder? total (pinnedNum pinned SERVER_THREADS) (pinnedNum pinned BATCH_SIZE)
  let want := match backend with
    | .rocm => ROCM_PRIOR
    | .wgpu | .flex | .upstream => WGPU_PRIOR
  let prior := ((ladder.zipIdx.filter fun e => e.1.1.all (· ≤ want)).getLast?.map (·.2)).getD 0
  return ⟨total, analysisThreads, ladder, prior⟩

/-! ## no step fails -/

theorem floorPow2?_eq {num : Nat} (h : num < U32_RANGE) :
    floorPow2? num = some (floorPow2 num) := by
  unfold floorPow2? floorPow2
  by_cases h0 : num = 0
  · rw [if_pos h0, if_pos h0]
  · have hlt : num < 2 ^ 32 := h
    have hlog : num.log2 < 32 := (Nat.log2_lt h0).mpr hlt
    have hshift : 31 - (32 - 1 - num.log2) = num.log2 := by omega
    rw [if_neg h0, if_neg h0, leadingZeros_eq h0 hlt, sub?_eq (by omega), hshift]
    exact shl?_one hlog

theorem batchCap?_eq (total : Nat) {servers : Nat} (h : servers ≠ 0) :
    batchCap? total servers = some (batchCap total servers) := by
  simp [batchCap?, batchCap, div?_eq h]

theorem inFlight?_eq {gpuLanes : Option Nat} (h : ∀ lanes ∈ gpuLanes, lanes < U32_RANGE)
    (depth : Nat) : inFlight? gpuLanes depth = some (inFlight gpuLanes depth) := by
  have hroom : min depth (U32_RANGE - 1) < U32_RANGE := by
    have hr : 0 < U32_RANGE := by decide
    omega
  cases gpuLanes with
  | none =>
    simp only [inFlight?, floorPow2?_eq hroom, Option.bind_eq_bind, Option.bind_some]
    rfl
  | some lanes =>
    have hdiv : div? lanes 16 = some (lanes / 16) := div?_eq (by decide)
    have hlanes : lanes / 16 < U32_RANGE :=
      lt_of_le_of_lt (Nat.div_le_self lanes 16) (h lanes rfl)
    simp only [inFlight?, hdiv, floorPow2?_eq hroom, floorPow2?_eq hlanes, Option.bind_eq_bind,
      Option.bind_some]
    rfl

theorem rungs?_eq (total : Nat) {servers : List Nat} (h : 0 ∉ servers) : rungs? total servers
    = some ((servers.filter fun srv => srv == 1 || decide (total / srv ≥ MIN_BATCH)).map
        fun srv => (some srv, some (batchCap total srv))) := by
  induction servers with
  | nil => rfl
  | cons srv servers ih =>
    have h0 : srv ≠ 0 := fun he => h (he ▸ List.mem_cons_self)
    have hrest := ih fun hm => h (List.mem_cons_of_mem _ hm)
    rw [rungs?, hrest, batchCap?_eq total h0, div?_eq h0, List.filter_cons]
    by_cases h1 : srv = 1
    · simp [h1]
    · by_cases hk : total / srv ≥ MIN_BATCH
      · simp [h1, hk]
      · simp [h1, hk]

theorem ne_zero_of_filter {pin : Option Nat} {n : Nat} (h : pin.filter (· > 0) = some n) :
    n ≠ 0 := by
  have hpos := of_decide_eq_true (Option.filter_eq_some_iff.mp h).2
  omega

theorem ladder?_eq (total : Nat) (servers batch : Option (Option Nat)) :
    ladder? total servers batch = some (ladderOf total servers batch) := by
  cases servers with
  | none =>
    cases batch with
    | none => exact rungs?_eq total (by decide)
    | some batch =>
      cases hb : batch.filter (· > 0) with
      | none => simp [ladder?, ladderOf, hb]
      | some bat => simp [ladder?, ladderOf, hb, div?_eq (ne_zero_of_filter hb)]
  | some servers =>
    cases batch with
    | none =>
      cases hs : servers.filter (· > 0) with
      | none => simp [ladder?, ladderOf, hs]
      | some srv => simp [ladder?, ladderOf, hs, batchCap?_eq total (ne_zero_of_filter hs)]
    | some batch => rfl

section
variable (pinned : Overrides) (depth : Nat) (backend : EngineBackend)

theorem new_ladder (gpuLanes : Option Nat) : (Space.new pinned depth backend gpuLanes).ladder
    = ladderOf (inFlight gpuLanes depth) (pinnedNum pinned SERVER_THREADS)
        (pinnedNum pinned BATCH_SIZE) := rfl

/-- **No step fails.** -/
theorem new?_eq {gpuLanes : Option Nat} (h : ∀ lanes ∈ gpuLanes, lanes < U32_RANGE) :
    Space.new? pinned depth backend gpuLanes = some (Space.new pinned depth backend gpuLanes) := by
  unfold Space.new?
  rw [inFlight?_eq h]
  show Option.bind (ladder? _ _ _) _ = _
  rw [ladder?_eq]
  rfl

/-! ## what the search relies on -/

/-- the server threads the positions are shared among: the rung's, or the pinned ones -/
def sharedBy (rung : Option Nat × Option Nat) : Option Nat :=
  rung.1.or ((pinned.get? SERVER_THREADS).bind parseU32)

/-- a rung derives counts of at least 1, and a batch that holds a server's share of the total -/
structure RungFormed (total : Nat) (rung : Option Nat × Option Nat) : Prop where
  servers_pos : ∀ servers ∈ rung.1, 1 ≤ servers
  batch_range : ∀ batch ∈ rung.2, 1 ≤ batch ∧ batch ≤ total
  batch_share : ∀ batch ∈ rung.2, ∃ servers ∈ sharedBy pinned rung,
    1 ≤ servers ∧ total / servers ≤ batch

structure Space.WellFormed (space : Space) : Prop where
  total_power : space.total.isPowerOfTwo
  total_range : 64 ≤ space.total ∧ space.total ≤ 512
  total_depth : space.total ≤ max depth 64
  threads : ∀ threads ∈ space.analysisThreads, threads = space.total
  ladder_ne : space.ladder ≠ []
  prior_in : space.prior < space.ladder.length
  rungs : ∀ rung ∈ space.ladder, RungFormed pinned space.total rung

end

theorem floorPow2_power (num : Nat) : floorPow2 num = 0 ∨ (floorPow2 num).isPowerOfTwo := by
  unfold floorPow2
  by_cases h : num = 0
  · exact Or.inl (if_pos h)
  · rw [if_neg h]
    exact Or.inr (isGreatest_log2 h).1.1

theorem floorPow2_le (num : Nat) : floorPow2 num ≤ num := by
  unfold floorPow2
  split_ifs with h
  · omega
  · exact (isGreatest_log2 h).1.2

theorem inFlight_power (gpuLanes : Option Nat) (depth : Nat) :
    (inFlight gpuLanes depth).isPowerOfTwo := by
  have h64 : Nat.isPowerOfTwo 64 := ⟨6, rfl⟩
  have h128 : Nat.isPowerOfTwo 128 := ⟨7, rfl⟩
  have hroom := isPowerOfTwo_max (floorPow2_power (min depth (U32_RANGE - 1))) h64
  apply isPowerOfTwo_min _ hroom
  cases gpuLanes with
  | none => exact ⟨8, rfl⟩
  | some lanes =>
    exact isPowerOfTwo_min (isPowerOfTwo_max (floorPow2_power (lanes / 16)) h128) ⟨9, rfl⟩

theorem inFlight_range (gpuLanes : Option Nat) (depth : Nat) :
    64 ≤ inFlight gpuLanes depth ∧ inFlight gpuLanes depth ≤ 512 := by
  cases gpuLanes with
  | none =>
    simp only [inFlight]
    omega
  | some lanes =>
    simp only [inFlight]
    omega

theorem inFlight_depth (gpuLanes : Option Nat) (depth : Nat) :
    inFlight gpuLanes depth ≤ max depth 64 := by
  have hfloor := floorPow2_le (min depth (U32_RANGE - 1))
  show min _ (max (floorPow2 (min depth (U32_RANGE - 1))) 64) ≤ max depth 64
  omega

theorem batchCap_range {total : Nat} (h : 0 < total) (servers : Nat) :
    1 ≤ batchCap total servers ∧ batchCap total servers ≤ total ∧
      total / servers ≤ batchCap total servers := by
  have hshare := Nat.div_le_self total servers
  simp only [batchCap, HEADROOM_BATCH]
  omega

theorem ladderOf_ne_nil (total : Nat) (servers batch : Option (Option Nat)) :
    ladderOf total servers batch ≠ [] := by
  unfold ladderOf
  split
  · simp
  · simp
  · simp
  · simp [SERVER_LADDER]

theorem getLast?_zipIdx_lt {A : Type} {l : List A} (hl : l ≠ []) (p : A × Nat → Bool) :
    (((l.zipIdx.filter p).getLast?).map (·.2)).getD 0 < l.length := by
  cases hg : (l.zipIdx.filter p).getLast? with
  | none => exact List.length_pos_iff.mpr hl
  | some e =>
    have hm := (List.mem_filter.mp (List.mem_of_getLast? hg)).1
    exact (List.mem_zipIdx' hm).1

section
variable {pinned : Overrides} {total : Nat}

theorem formed_of_servers {servers : Option Nat} (h : ∀ n ∈ servers, 1 ≤ n) :
    RungFormed pinned total (servers, none) :=
  ⟨h, fun _ hm => (by cases hm), fun _ hm => (by cases hm)⟩

/-- a rung whose batch is the cap of the server threads the positions are shared among -/
theorem formed_of_shared (ht : 0 < total) {servers : Option Nat} {srv : Nat}
    (h : ∀ n ∈ servers, 1 ≤ n) (hone : 1 ≤ srv)
    (hshared : sharedBy pinned (servers, some (batchCap total srv)) = some srv) :
    RungFormed pinned total (servers, some (batchCap total srv)) := by
  have hcap := batchCap_range ht srv
  refine ⟨h, ?_, ?_⟩
  · rintro _ ⟨⟩
    exact ⟨hcap.1, hcap.2.1⟩
  · rintro _ ⟨⟩
    exact ⟨srv, hshared, hone, hcap.2.2⟩

theorem ladderOf_formed (ht : 0 < total) : ∀ rung ∈ ladderOf total
    (pinnedNum pinned SERVER_THREADS) (pinnedNum pinned BATCH_SIZE),
      RungFormed pinned total rung := by
  intro rung hr
  cases hs : pinnedNum pinned SERVER_THREADS with
  | none =>
    cases hb : pinnedNum pinned BATCH_SIZE with
    | none =>
      rw [hs, hb] at hr
      obtain ⟨srv, hsrv, rfl⟩ := List.mem_map.mp hr
      have hpos : ∀ n ∈ SERVER_LADDER, 1 ≤ n := by decide
      have hone := hpos srv (List.mem_filter.mp hsrv).1
      exact formed_of_shared ht (forall_mem_some hone) hone rfl
    | some batch =>
      rw [hs, hb] at hr
      obtain rfl := List.mem_singleton.mp hr
      refine formed_of_servers fun servers hm => ?_
      obtain ⟨bat, _, rfl⟩ := Option.map_eq_some_iff.mp hm
      exact le_max_right _ 1
  | some servers =>
    cases hb : pinnedNum pinned BATCH_SIZE with
    | none =>
      rw [hs, hb] at hr
      obtain rfl := List.mem_singleton.mp hr
      cases hf : servers.filter (· > 0) with
      | none => exact formed_of_servers forall_mem_none
      | some srv =>
        have hpos := ne_zero_of_filter hf
        obtain ⟨value, hv, hp⟩ := Option.map_eq_some_iff.mp hs
        refine formed_of_shared ht forall_mem_none (by omega) ?_
        show (pinned.get? SERVER_THREADS).bind parseU32 = some srv
        rw [hv, Option.bind_some, hp, (Option.filter_eq_some_iff.mp hf).1]
    | some batch =>
      rw [hs, hb] at hr
      obtain rfl := List.mem_singleton.mp hr
      exact formed_of_servers forall_mem_none

end

theorem wellFormed (pinned : Overrides) (depth : Nat) (backend : EngineBackend)
    (gpuLanes : Option Nat) :
    (Space.new pinned depth backend gpuLanes).WellFormed pinned depth := by
  have hladder := new_ladder pinned depth backend gpuLanes
  have hrange := inFlight_range gpuLanes depth
  have hne : (Space.new pinned depth backend gpuLanes).ladder ≠ [] :=
    hladder ▸ ladderOf_ne_nil _ _ _
  refine ⟨inFlight_power gpuLanes depth, hrange, inFlight_depth gpuLanes depth, ?_, hne,
    getLast?_zipIdx_lt hne _, ?_⟩
  · intro threads hm
    exact (Option.some.inj (Option.ite_none_right_eq_some.mp hm).2).symm
  · rw [hladder]
    exact ladderOf_formed (by omega)

/-- **The fast search space is well formed**, whatever the pins, the queue depth, the backend and
the GPU: it is computed without a panic, and the numbers in it are in range; `floorPow2` is the
greatest power of two that is not above its argument. -/
theorem space_wellFormed (pinned : Overrides) (depth : Nat) (backend : EngineBackend)
    (gpuLanes : Option UInt32) :
    (∃ space, Space.new? pinned depth backend (gpuLanes.map UInt32.toNat) = some space ∧
      space = Space.new pinned depth backend (gpuLanes.map UInt32.toNat) ∧
      space.WellFormed pinned depth) ∧
    ∀ num : UInt32, num ≠ 0 → ∃ p, floorPow2? num.toNat = some p ∧
      IsGreatest {q | q.isPowerOfTwo ∧ q ≤ num.toNat} p := by
  have hlanes : ∀ lanes ∈ gpuLanes.map UInt32.toNat, lanes < U32_RANGE := by
    intro lanes hm
    obtain ⟨word, _, rfl⟩ := Option.map_eq_some_iff.mp hm
    exact word.toNat_lt
  constructor
  · exact ⟨_, new?_eq pinned depth backend hlanes, rfl, wellFormed pinned depth backend _⟩
  · intro num hnum
    have hne : num.toNat ≠ 0 := fun h => hnum (UInt32.toNat_inj.mp h)
    refine ⟨_, floorPow2?_eq num.toNat_lt, ?_⟩
    rw [floorPow2, if_neg hne]
    exact isGreatest_log2 hne

end Fast
end Autotune
end KatagoWs
