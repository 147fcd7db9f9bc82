import KatagoWs.Engine.Cache
import KatagoWs.Lib.Run

/-!
# The auto-tune cache as a map

`store` reads the file, puts the entry in for the others with its key, and writes the file again
beside itself before it renames it.  What the serializer writes and reads is a parameter.

* `storeFile`        one call, with its error paths; `storeSys` a run of calls that succeed;
* `recalled`         the map the file stands for;
* `stores_read`      after a run the entries are those of the file, renewed one by one;
* `cache_is_map`     a lookup answers what the last store of the key put in, and a fast one
                     accepts a thorough result when there is none of its own.
-/

namespace KatagoWs
namespace Autotune
namespace Cache
open Lib NNRat

structure CachePath where
  path : String
  /-- the directory of the file, unless it is a root -/
  parent : Option String
  /-- the file beside it that this process writes first -/
  tmp : String

/-- what the file system answers one call of `store` -/
structure StoreIo where
  createDir : Except String Unit
  write : Except String Unit
  rename : Except String Unit

section
variable {Raw : Type} (decode : Raw → Option (List CacheEntry))
  (encode : List CacheEntry → Except String Raw)

def read (file : Option Raw) : List CacheEntry := (file.bind decode).getD []

def lookupFile (file : Option Raw) (key : CacheKey) : Option CacheEntry :=
  lookup (read decode file) key

def makeDir (place : CachePath) (io : StoreIo) : Except String Unit :=
  match place.parent with
  | some dir => io.createDir.mapError fun err => s!"create {dir}: {err}"
  | none => .ok ()

/-- Add or replace the entry for `entry.key`, writing atomically: what the file is renamed to. -/
def storeFile (place : CachePath) (io : StoreIo) (file : Option Raw) (entry : CacheEntry) :
    Except String Raw := do
  let tmp := place.tmp
  let path := place.path
  makeDir place io
  let json ← encode (store (read decode file) entry)
  io.write.mapError fun err => s!"write {tmp}: {err}"
  io.rename.mapError fun err => s!"rename to {path}: {err}"
  return json

/-- the file under the calls of one process; a call that fails leaves it as it was -/
def storeSys (place : CachePath) : Sys (Option Raw) (StoreIo × CacheEntry) where
  init _ := True
  step file call :=
    match storeFile decode encode place call.1 file call.2 with
    | .ok json => some (some json)
    | .error _ => none

/-- what the cache holds for `key` after `stores`: the last of them for the key, else the first
entry the file had -/
def recalled (file : Option Raw) (stores : List CacheEntry) (key : CacheKey) : Option CacheEntry :=
  (lastBy CacheEntry.key stores key).or (firstBy CacheEntry.key (read decode file) key)

variable {decode encode}

theorem storeFile_ok {place : CachePath} {io : StoreIo} {file : Option Raw} {entry : CacheEntry}
    {json : Raw} (h : storeFile decode encode place io file entry = .ok json) :
    encode (store (read decode file) entry) = .ok json := by
  obtain ⟨-, -, h⟩ := bind_ok.mp h
  obtain ⟨raw, henc, h⟩ := bind_ok.mp h
  obtain ⟨-, -, h⟩ := bind_ok.mp h
  obtain ⟨-, -, h⟩ := bind_ok.mp h
  cases h
  exact henc

def ReadsBack (decode : Raw → Option (List CacheEntry))
    (encode : List CacheEntry → Except String Raw) : Prop :=
  ∀ entries json, encode entries = .ok json → decode json = some entries

/-! ## a run of stores -/

variable {place : CachePath}

theorem step_read (hserde : ReadsBack decode encode) {file file' : Option Raw}
    {call : StoreIo × CacheEntry} (h : (storeSys decode encode place).step file call = some file') :
    read decode file' = renew CacheEntry.key (read decode file) call.2 := by
  change (match storeFile decode encode place call.1 file call.2 with
    | .ok json => some (some json)
    | .error _ => none) = some file' at h
  cases hs : storeFile decode encode place call.1 file call.2 with
  | error err =>
    rw [hs] at h
    cases h
  | ok json =>
    rw [hs] at h
    cases h
    have hback := hserde _ _ (storeFile_ok hs)
    rw [read, Option.bind_some, hback]
    rfl

theorem stores_read (hserde : ReadsBack decode encode) {file file' : Option Raw}
    {calls : List (StoreIo × CacheEntry)}
    (h : (storeSys decode encode place).exec file calls = some file') :
    read decode file' = (calls.map Prod.snd).foldl (renew CacheEntry.key) (read decode file) := by
  induction calls generalizing file with
  | nil =>
    cases h
    rfl
  | cons call calls ih =>
    obtain ⟨mid, h1, h2⟩ := Sys.exec_cons h
    rw [ih h2, step_read hserde h1, List.map_cons, List.foldl_cons]

theorem stores_nodup {entries stores : List CacheEntry}
    (h : (entries.map CacheEntry.key).Nodup) :
    ((stores.foldl (renew CacheEntry.key) entries).map CacheEntry.key).Nodup := by
  induction stores generalizing entries with
  | nil => exact h
  | cons entry stores ih => exact ih (renew_nodup CacheEntry.key h entry)

theorem lookup_eq (entries : List CacheEntry) (key : CacheKey) : lookup entries key =
    (firstBy CacheEntry.key entries key).or
      (if key.mode = modeName .thorough then none
        else firstBy CacheEntry.key entries { key with mode := modeName .thorough }) := by
  have hexact : (entries.find? fun entry => decide (entry.key = key))
      = firstBy CacheEntry.key entries key := rfl
  rw [lookup, hexact]
  cases firstBy CacheEntry.key entries key with
  | some hit => rfl
  | none => exact (Option.none_or).symm

/-- **The cache is a map.**  After any run of stores a lookup answers the last entry stored for
the key, else the first the file had; a key of another mode than `thorough` then does the same
with its thorough one.  A store leaves the exact answer of every other key, and a file that was
missing or corrupt has one entry a key. -/
theorem cache_is_map (hserde : ReadsBack decode encode) {file file' : Option Raw}
    {calls : List (StoreIo × CacheEntry)}
    (h : (storeSys decode encode place).exec file calls = some file') :
    (∀ key, lookupFile decode file' key =
      (recalled decode file (calls.map Prod.snd) key).or
        (if key.mode = modeName .thorough then none
          else recalled decode file (calls.map Prod.snd)
            { key with mode := modeName .thorough })) ∧
    (∀ call file'' key, (storeSys decode encode place).step file' call = some file'' →
      key ≠ call.2.key → firstBy CacheEntry.key (read decode file'') key
        = firstBy CacheEntry.key (read decode file') key) ∧
    (file.bind decode = none → ((read decode file').map CacheEntry.key).Nodup) := by
  have hread := stores_read hserde h
  have hexact : ∀ key, firstBy CacheEntry.key (read decode file') key
      = recalled decode file (calls.map Prod.snd) key := by
    intro key
    rw [hread, firstBy_foldl_renew]
    rfl
  refine ⟨fun key => ?_, fun call file'' key hstep hne => ?_, fun hnone => ?_⟩
  · rw [lookupFile, lookup_eq, hexact, hexact]
  · rw [step_read hserde hstep, firstBy_renew, if_neg (Ne.symm hne)]
  · have hempty : read decode file = [] := by
      rw [read, hnone]
      rfl
    rw [hread, hempty]
    exact stores_nodup List.nodup_nil

end

/-! ## a corrupt file, and three stores -/

/-- a file's text: a list of entries written out, or not JSON -/
inductive CacheText where
  | json (entries : List CacheEntry)
  | other (text : String)

def CacheText.decode : CacheText → Option (List CacheEntry)
  | .json entries => some entries
  | .other _ => none

def sampleKey (mode : String) (maxVisits : Nat) : CacheKey :=
  { CacheKey.build sampleHost (sampleConfig "katago-rs" "/nets/current.bpk" 16) 2 noPins with
    mode, maxVisits }

def sampleEntry (key : CacheKey) (tuned : String) : CacheEntry :=
  { key, tuned, positionsPerSec := 160, tuneSecs := 50, tunedAtUnix := 0, trials := [] }

def samplePlace : CachePath :=
  ⟨"/data/autotune.json", some "/data", "/data/autotune.tmp7"⟩

def sampleStores : List (StoreIo × CacheEntry) :=
  [sampleEntry (sampleKey "thorough" 500) "nnMaxBatchSize=32",
    sampleEntry (sampleKey "thorough" 200) "nnMaxBatchSize=64",
    sampleEntry (sampleKey "thorough" 500) "nnMaxBatchSize=48"].map fun entry =>
      (⟨.ok (), .ok (), .ok ()⟩, entry)

theorem cache_is_map_fast : ∃ file',
    (storeSys CacheText.decode (fun entries => .ok (.json entries)) samplePlace).exec
        (some (.other "\x7b not json")) sampleStores = some file' ∧
      lookupFile CacheText.decode file' (sampleKey "fast" 500)
        = some (sampleEntry (sampleKey "thorough" 500) "nnMaxBatchSize=48") := by
  have hserde : ReadsBack CacheText.decode (fun entries => .ok (.json entries)) := by
    intro entries json h
    cases h
    rfl
  have hrun : ∃ file', (storeSys CacheText.decode (fun entries => .ok (.json entries))
      samplePlace).exec (some (.other "\x7b not json")) sampleStores = some file' := ⟨_, rfl⟩
  obtain ⟨file', hfile⟩ := hrun
  refine ⟨file', hfile, ?_⟩
  rw [(cache_is_map hserde hfile).1]
  decide +kernel

end Cache
end Autotune
end KatagoWs
