import KatagoWs.Engine.Katago
import KatagoWs.Lib.Overlay
import KatagoWs.Lib.Text

/-!
# `-override-config` strings

`key=value,key=value`, in order.  `Overrides` holds the pairs, each key once; `settings` reads
the argument an engine is launched with as a map in which a repeated key keeps its last value.

* `Overrides.get_parse`      what a parsed string holds is what its pairs leave;
* `pairsOf_intercalate`      the pairs of a joined list are those of its parts;
* `Overrides.pairsOf_toString`, `Overrides.parse_toString`   pairs that print plainly are read
                             again;
* `Overrides.get_parse_iff`   a key's value is that of its last well-formed entry;
* `Overrides.override_strings`   a parsed string is read back from its print, and what a filling
                             keeps and adds;
* `settings_katagoOverrides` what a configuration launches the engine with: the tuning fields,
                             the precision, then `override_config`, a later one over an earlier.
-/

namespace KatagoWs
open Lib

def ANALYSIS_THREADS : String := "numAnalysisThreads"
def SEARCH_THREADS : String := "numSearchThreadsPerAnalysisThread"
def SERVER_THREADS : String := "numNNServerThreadsPerModel"
def BATCH_SIZE : String := "nnMaxBatchSize"

def tuningKeys : List String := [ANALYSIS_THREADS, SEARCH_THREADS, SERVER_THREADS, BATCH_SIZE]

/-! ## texts -/

def split (sep : Char) (s : String) : List String := (s.toList.splitOn sep).map String.ofList

def splitOnce (sep : Char) (s : String) : Option (String × String) :=
  (splitFirst sep s.toList).map fun p => (String.ofList p.1, String.ofList p.2)

/-- An ordered set of `key=value` settings. -/
abbrev Overrides := SeqMap String String

namespace Overrides

/-- the pair of one entry: a blank one, or one without a key, is skipped -/
def entry (s : String) : Option (String × String) :=
  match splitOnce '=' s with
  | none => none
  | some (key, value) => if (trim key).isEmpty then none else some (trim key, trim value)

def pairsOf (raw : String) : List (String × String) := (split ',' raw).filterMap entry

def parse (raw : String) : Overrides := SeqMap.empty.extend (pairsOf raw)

def pair (e : String × String) : String := e.1 ++ "=" ++ e.2

protected def toString (overrides : Overrides) : String :=
  ",".intercalate (overrides.entries.map pair)

end Overrides

/-- the numeric settings of a configuration, in the order they are printed -/
def EngineConfig.numeric (cfg : EngineConfig) : List (String × Nat) :=
  [("numAnalysisThreads", cfg.analysisThreads),
    ("numSearchThreadsPerAnalysisThread", cfg.searchThreadsPerAnalysis),
    ("nnMaxBatchSize", cfg.nnMaxBatchSize),
    ("numNNServerThreadsPerModel", cfg.nnServerThreads)]

/-- The `-override-config` argument for the engine, or `none` when nothing is overridden. -/
def EngineConfig.katagoOverrides (cfg : EngineConfig) : Option String :=
  let pairs := (cfg.numeric.filter fun e => decide (e.2 > 0)).map fun e =>
    e.1 ++ "=" ++ toString e.2
  let fp16 := if cfg.fp16 && cfg.backend.isKatagoRs then ["burnUseFP16=true"] else []
  let extra := ((split ',' cfg.overrideConfig).map trim).filter fun pair => !pair.isEmpty
  let joined := ",".intercalate (pairs ++ fp16 ++ extra)
  if joined.isEmpty then none else some joined

/-- the settings an engine reads off its argument: a repeated key keeps its last value -/
def settings (arg : Option String) : String → Option String :=
  match arg with
  | none => fun _ => none
  | some raw => overlay (Overrides.pairsOf raw)

/-! ## entries -/

theorem trim_toList (s : String) : (trim s).toList = strip isWhiteSpace s.toList :=
  String.toList_ofList

theorem trim_trim (s : String) : trim (trim s) = trim s := by
  refine String.toList_injective ?_
  rw [trim_toList, trim_toList, strip_strip]

theorem mem_trim {s : String} {c : Char} (h : c ∈ (trim s).toList) : c ∈ s.toList := by
  rw [trim_toList] at h
  exact mem_strip h

theorem trim_eq_self {s : String} (h : ∀ c ∈ s.toList, isWhiteSpace c = false) : trim s = s := by
  refine String.toList_injective ?_
  rw [trim_toList, strip_eq_self h]

theorem splitOnce_spec {sep : Char} {s a b : String} (h : splitOnce sep s = some (a, b)) :
    s.toList = a.toList ++ sep :: b.toList ∧ sep ∉ a.toList := by
  obtain ⟨⟨x, y⟩, hs, he⟩ := Option.map_eq_some_iff.mp h
  obtain ⟨rfl, rfl⟩ := Prod.mk.inj he
  rw [String.toList_ofList, String.toList_ofList]
  exact splitFirst_spec hs

theorem pair_toList (e : String × String) :
    (Overrides.pair e).toList = e.1.toList ++ '=' :: e.2.toList := by
  rw [Overrides.pair, String.toList_append, String.toList_append]
  exact List.append_assoc _ _ _

namespace Overrides

theorem entry_pair {key value : String} (hk : '=' ∉ key.toList) (hn : (trim key).isEmpty = false) :
    entry (pair (key, value)) = some (trim key, trim value) := by
  have hs : splitOnce '=' (pair (key, value)) = some (key, value) := by
    rw [splitOnce, pair_toList, splitFirst_mid hk, Option.map_some, String.ofList_toList,
      String.ofList_toList]
  rw [entry, hs]
  show (if (trim key).isEmpty = true then _ else _) = _
  rw [hn, if_neg Bool.false_ne_true]

theorem entry_trim (s : String) : entry (trim s) = entry s := by
  obtain ⟨a, b, ha, hb, hs⟩ := exists_strip isWhiteSpace s.toList
  have hnot : ∀ l : List Char, (∀ c ∈ l, isWhiteSpace c = true) → '=' ∉ l :=
    fun l hl hc => absurd (hl _ hc) (by decide)
  rw [← trim_toList] at hs
  have he : splitOnce '=' s = (splitFirst '=' (trim s).toList).map fun p =>
      (String.ofList (a ++ p.1), String.ofList (p.2 ++ b)) := by
    rw [splitOnce, hs, splitFirst_pad (hnot a ha) (hnot b hb), Option.map_map]
    rfl
  have hl : ∀ l, trim (String.ofList (a ++ l)) = trim (String.ofList l) := by
    intro l
    have hp := strip_pad ha (List.forall_mem_nil _) l
    rw [List.append_nil] at hp
    refine String.toList_injective ?_
    rw [trim_toList, trim_toList, String.toList_ofList, String.toList_ofList, hp]
  have hr : ∀ l, trim (String.ofList (l ++ b)) = trim (String.ofList l) := by
    intro l
    refine String.toList_injective ?_
    rw [trim_toList, trim_toList, String.toList_ofList, String.toList_ofList, strip_append hb]
  rw [entry, entry, he, splitOnce]
  cases splitFirst '=' (trim s).toList with
  | none => rfl
  | some p =>
    show (if _ then _ else _) = if _ then _ else _
    rw [hl, hr]

/-- a pair that its printed form is read as again -/
structure Plain (e : String × String) : Prop where
  comma : ',' ∉ (pair e).toList
  again : entry (pair e) = some e

theorem entry_plain {s : String} {e : String × String} (hs : ',' ∉ s.toList)
    (h : entry s = some e) : Plain e := by
  unfold entry at h
  split at h
  · cases h
  · next key value ho =>
    obtain ⟨hl, hk⟩ := splitOnce_spec ho
    split_ifs at h with hn
    cases h
    have hn' : (trim (trim key)).isEmpty = false := by
      rw [trim_trim]
      exact Bool.not_eq_true _ ▸ hn
    refine ⟨fun hc => hs ?_, ?_⟩
    · rw [pair_toList] at hc
      rw [hl]
      rcases List.mem_append.mp hc with hc | hc
      · exact List.mem_append_left _ (mem_trim hc)
      · rcases List.mem_cons.mp hc with hc | hc
        · exact absurd hc (by decide)
        · exact List.mem_append_right _ (List.mem_cons_of_mem _ (mem_trim hc))
    · rw [entry_pair (fun hc => hk (mem_trim hc)) hn', trim_trim, trim_trim]

/-! ## printing and reading -/

theorem get_parse (raw key : String) : (parse raw).get? key = settings (some raw) key := by
  have he : (SeqMap.empty : Overrides).get? key = none := rfl
  rw [parse, SeqMap.get?_extend, he, Option.or_none]
  rfl

theorem pairsOf_intercalate {parts : List String} (h : ∀ s ∈ parts, ',' ∉ s.toList) :
    pairsOf (",".intercalate parts) = parts.filterMap entry := by
  have hf : (entry ∘ String.ofList) [] = none := by decide
  have hl : ∀ l ∈ parts.map String.toList, ',' ∉ l := by
    intro l hl
    obtain ⟨s, hs, rfl⟩ := List.mem_map.mp hl
    exact h s hs
  have hj : (",".intercalate parts).toList = [','].intercalate (parts.map String.toList) :=
    String.toList_intercalate
  rw [pairsOf, split, hj, List.filterMap_map, filterMap_fields hf hl, List.filterMap_map]
  refine List.filterMap_congr fun s _ => ?_
  rw [Function.comp_apply, Function.comp_apply, String.ofList_toList]

theorem filterMap_pair {l : List (String × String)} (h : ∀ e ∈ l, Plain e) :
    (l.map pair).filterMap entry = l := by
  induction l with
  | nil => rfl
  | cons e l ih =>
    rw [List.map_cons, List.filterMap_cons_some (h e List.mem_cons_self).again,
      ih fun x hx => h x (List.mem_cons_of_mem e hx)]

theorem pairsOf_toString {overrides : Overrides} (h : ∀ e ∈ overrides.entries, Plain e) :
    pairsOf overrides.toString = overrides.entries := by
  have hc : ∀ s ∈ overrides.entries.map pair, ',' ∉ s.toList := by
    intro s hs
    obtain ⟨e, he, rfl⟩ := List.mem_map.mp hs
    exact (h e he).comma
  rw [Overrides.toString, pairsOf_intercalate hc, filterMap_pair h]

theorem parse_toString {overrides : Overrides} (h : ∀ e ∈ overrides.entries, Plain e) :
    parse overrides.toString = overrides := by
  rw [parse, pairsOf_toString h, SeqMap.extend_entries]

theorem comma_of_mem_split {raw s : String} (h : s ∈ split ',' raw) : ',' ∉ s.toList := by
  obtain ⟨l, hl, rfl⟩ := List.mem_map.mp h
  rw [String.toList_ofList]
  exact not_mem_of_mem_splitOn hl

theorem pairsOf_plain {raw : String} {e : String × String} (h : e ∈ pairsOf raw) : Plain e := by
  obtain ⟨s, hs, he⟩ := List.mem_filterMap.mp h
  exact entry_plain (comma_of_mem_split hs) he

theorem parse_plain {raw : String} : ∀ e ∈ (parse raw).entries, Plain e := by
  rintro ⟨key, value⟩ he
  have hg : (parse raw).get? key = some value := SeqMap.get?_eq_some.mpr he
  rw [get_parse] at hg
  exact pairsOf_plain (overlay_mem hg)

/-! ## what a string sets -/

/-- a well-formed entry for `key`: the text before the first `=` is the key and what follows the
value, without the blanks around them -/
def Sets (field key value : String) : Prop :=
  ∃ k v, field = k ++ "=" ++ v ∧ '=' ∉ k.toList ∧ trim k = key ∧ key ≠ "" ∧ trim v = value

/-- the last well-formed entry for `key` has the value -/
def LastSets (raw key value : String) : Prop :=
  ∃ before field after, split ',' raw = before ++ field :: after ∧ Sets field key value ∧
    ∀ later ∈ after, ∀ other, ¬ Sets later key other

theorem entry_iff {s key value : String} : entry s = some (key, value) ↔ Sets s key value := by
  constructor
  · intro h
    unfold entry at h
    split at h
    · cases h
    · next k v ho =>
      obtain ⟨hs, hk⟩ := splitOnce_spec ho
      split_ifs at h with hn
      cases h
      refine ⟨k, v, ?_, hk, rfl, fun he => hn (String.isEmpty_iff.mpr he), rfl⟩
      exact String.toList_injective (hs.trans (pair_toList (k, v)).symm)
  · rintro ⟨k, v, rfl, hk, rfl, hne, rfl⟩
    exact entry_pair hk (Bool.not_eq_true _ ▸ fun he => hne (String.isEmpty_iff.mp he))

theorem get_parse_iff {raw key value : String} :
    (parse raw).get? key = some value ↔ LastSets raw key value := by
  rw [get_parse]
  refine overlay_filterMap.trans ?_
  simp only [LastSets, entry_iff, ne_eq]

theorem parse_parse (raw : String) : parse (parse raw).toString = parse raw :=
  parse_toString parse_plain

/-- **Override strings.**  A parsed string holds each key once, with the value of its last
well-formed entry; it prints as a string that is read as the same pairs in the same order, so that
equal prints are prints of equal sets; and filling a set leaves its pairs where they are and puts
the other's new ones behind them, in their order. -/
theorem override_strings (s t : String) (a b : Overrides) :
    ((parse s).entries.map Prod.fst).Nodup ∧
    (∀ key value, (parse s).get? key = some value ↔ LastSets s key value) ∧
    parse (parse s).toString = parse s ∧
    ((parse s).toString = (parse t).toString ↔ parse s = parse t) ∧
    (a.fill b).entries = a.entries ++ b.entries.filter (fun e => decide (a.get? e.1 = none)) ∧
    ((a.fill b).entries.map Prod.fst).Nodup ∧
    (a.fill b).fill b = a.fill b ∧ a.fill a = a := by
  refine ⟨(parse s).nodup, fun _ _ => get_parse_iff, parse_parse s, ⟨fun h => ?_, fun h => ?_⟩,
    SeqMap.fill_entries a b, (a.fill b).nodup, SeqMap.fill_fill a b, SeqMap.fill_self a⟩
  · rw [← parse_parse s, h, parse_parse]
  · rw [h]

/-! ## plain pairs -/

def plainChar (c : Char) : Bool := c != ',' && !isWhiteSpace c

def plainKey (key : String) : Bool :=
  !key.isEmpty && key.toList.all fun c => c != '=' && plainChar c

theorem plainChar_iff {c : Char} : plainChar c = true ↔ c ≠ ',' ∧ isWhiteSpace c = false := by
  rw [plainChar, Bool.and_eq_true, bne_iff_ne, Bool.not_eq_true']

theorem trim_of_plain {s : String} (h : s.toList.all plainChar = true) : trim s = s :=
  trim_eq_self fun c hc => (plainChar_iff.mp (List.all_eq_true.mp h c hc)).2

/-- a key without blanks and separators, and a value without blanks and commas, print plainly -/
theorem plain_of_chars {key value : String} (hk : plainKey key = true)
    (hv : value.toList.all plainChar = true) : Plain (key, value) := by
  obtain ⟨hn, hk⟩ := Bool.and_eq_true_iff.mp hk
  have hkc : ∀ c ∈ key.toList, c ≠ '=' ∧ plainChar c = true := by
    intro c hc
    obtain ⟨he, hp⟩ := Bool.and_eq_true_iff.mp (List.all_eq_true.mp hk c hc)
    exact ⟨bne_iff_ne.mp he, hp⟩
  have htk : trim key = key := trim_of_plain (List.all_eq_true.mpr fun c hc => (hkc c hc).2)
  have htv : trim value = value := trim_of_plain hv
  have hcomma : plainChar ',' = false := by decide
  refine ⟨fun hc => ?_, ?_⟩
  · rw [pair_toList] at hc
    rcases List.mem_append.mp hc with hc | hc
    · exact absurd (hkc _ hc).2 (by rw [hcomma]; exact Bool.false_ne_true)
    · rcases List.mem_cons.mp hc with hc | hc
      · exact absurd hc (by decide)
      · exact absurd (List.all_eq_true.mp hv _ hc) (by rw [hcomma]; exact Bool.false_ne_true)
  · have hn' : (trim key).isEmpty = false := by
      rw [htk]
      exact (Bool.not_eq_true' _).mp hn
    rw [entry_pair (fun hc => (hkc _ hc).1 rfl) hn', htk, htv]

theorem digit_toNat {c : Char} (h : c.isDigit = true) : 48 ≤ c.toNat ∧ c.toNat ≤ 57 := by
  obtain ⟨h1, h2⟩ := Bool.and_eq_true_iff.mp h
  exact ⟨UInt32.le_iff_toNat_le.mp (of_decide_eq_true h1),
    UInt32.le_iff_toNat_le.mp (of_decide_eq_true h2)⟩

theorem decimal_plain (n : Nat) : (toString n).toList.all plainChar = true := by
  refine List.all_eq_true.mpr fun c hc => plainChar_iff.mpr ?_
  rw [Nat.toString_eq_repr, Nat.toList_repr] at hc
  have hd := digit_toNat (Nat.isDigit_of_mem_toDigits (by decide) (by decide) hc)
  constructor
  · rintro rfl
    have h44 : (',' : Char).toNat = 44 := rfl
    omega
  · simp [isWhiteSpace]
    omega

end Overrides

theorem parseUsize_digits {cs : List Char} (hn : cs ≠ []) (hd : ∀ c ∈ cs, c.isDigit = true) :
    parseUsize cs = if Nat.ofDigitChars 10 cs 0 < USIZE_RANGE
      then some (Nat.ofDigitChars 10 cs 0) else none := by
  have ha : cs ≠ [] ∧ cs.all Char.isDigit = true := ⟨hn, List.all_eq_true.mpr hd⟩
  have hplus : ∀ rest, cs = '+' :: rest → False := by
    rintro rest rfl
    exact absurd (hd '+' List.mem_cons_self) (by decide)
  rw [Nat.ofDigitChars_eq_foldl, parseUsize]
  · exact if_pos ha
  · exact hplus

theorem parseUsize_toString {n : Nat} (h : n < USIZE_RANGE) :
    parseUsize (toString n).toList = some n := by
  rw [Nat.toString_eq_repr, Nat.toList_repr, parseUsize_digits Nat.toDigits_ne_nil fun c hc =>
    Nat.isDigit_of_mem_toDigits (by decide) (by decide) hc, Nat.ofDigitChars_ten_toDigits, if_pos h]

/-! ## what an engine is launched with -/

theorem tuning_plainKey : tuningKeys.all Overrides.plainKey = true := by
  decide +kernel

theorem tuning_plain {key : String} (h : key ∈ tuningKeys) (n : Nat) :
    Overrides.Plain (key, toString n) :=
  Overrides.plain_of_chars (List.all_eq_true.mp tuning_plainKey key h) (Overrides.decimal_plain n)

theorem numeric_keys {cfg : EngineConfig} {e : String × Nat} (h : e ∈ cfg.numeric) :
    e.1 ∈ tuningKeys := by
  have hm : cfg.numeric.map Prod.fst
      = [ANALYSIS_THREADS, SEARCH_THREADS, BATCH_SIZE, SERVER_THREADS] := rfl
  have hk : ∀ key ∈ [ANALYSIS_THREADS, SEARCH_THREADS, BATCH_SIZE, SERVER_THREADS],
      key ∈ tuningKeys := by decide
  exact hk _ (hm ▸ List.mem_map_of_mem h)

def EngineConfig.printed (cfg : EngineConfig) : List (String × String) :=
  (cfg.numeric.filter fun e => decide (e.2 > 0)).map fun e => (e.1, toString e.2)

def EngineConfig.precision (cfg : EngineConfig) : List (String × String) :=
  if cfg.fp16 && cfg.backend.isKatagoRs then [("burnUseFP16", "true")] else []

theorem printed_plain {cfg : EngineConfig} : ∀ e ∈ cfg.printed, Overrides.Plain e := by
  intro e he
  obtain ⟨x, hx, rfl⟩ := List.mem_map.mp he
  exact tuning_plain (numeric_keys (List.mem_filter.mp hx).1) x.2

theorem precision_plain {cfg : EngineConfig} : ∀ e ∈ cfg.precision, Overrides.Plain e := by
  intro e he
  unfold EngineConfig.precision at he
  split at he
  · obtain rfl := List.mem_singleton.mp he
    exact Overrides.plain_of_chars (by decide) (by decide)
  · cases he

theorem filterMap_extra (raw : String) :
    (((split ',' raw).map trim).filter fun pair => !pair.isEmpty).filterMap Overrides.entry
      = Overrides.pairsOf raw := by
  rw [List.filterMap_filter, List.filterMap_map]
  refine List.filterMap_congr fun s _ => ?_
  rw [Function.comp_apply, ← Overrides.entry_trim s]
  split_ifs with h
  · rfl
  · have he : trim s = "" := by
      simpa using h
    rw [he]
    decide

theorem settings_of_isEmpty (joined : String) :
    settings (if joined.isEmpty then none else some joined) = settings (some joined) := by
  split_ifs with h
  · rw [String.isEmpty_iff.mp h]
    have hp : Overrides.pairsOf "" = [] := by decide
    funext key
    rw [settings, settings, hp]
    rfl
  · rfl

/-- **What a configuration launches the engine with**: its numeric settings, then the precision,
then the pairs of `override_config`. -/
theorem settings_katagoOverrides (cfg : EngineConfig) (key : String) :
    settings cfg.katagoOverrides key
      = (settings (some cfg.overrideConfig) key).or
          ((overlay cfg.precision key).or (overlay cfg.printed key)) := by
  set extra := ((split ',' cfg.overrideConfig).map trim).filter fun pair => !pair.isEmpty
    with hextra
  set parts := cfg.printed.map Overrides.pair ++ cfg.precision.map Overrides.pair ++ extra
    with hparts
  have hc : ∀ s ∈ parts, ',' ∉ s.toList := by
    intro s hs
    rcases List.mem_append.mp hs with hs | hs
    · rcases List.mem_append.mp hs with hs | hs
      · obtain ⟨e, he, rfl⟩ := List.mem_map.mp hs
        exact (printed_plain e he).comma
      · obtain ⟨e, he, rfl⟩ := List.mem_map.mp hs
        exact (precision_plain e he).comma
    · obtain ⟨t, ht, rfl⟩ := List.mem_map.mp (List.mem_filter.mp hs).1
      exact fun hm => Overrides.comma_of_mem_split ht (mem_trim hm)
  have hpairs : Overrides.pairsOf (",".intercalate parts)
      = cfg.printed ++ cfg.precision ++ Overrides.pairsOf cfg.overrideConfig := by
    rw [Overrides.pairsOf_intercalate hc, hparts, List.filterMap_append, List.filterMap_append,
      Overrides.filterMap_pair printed_plain, Overrides.filterMap_pair precision_plain, hextra,
      filterMap_extra]
  have hk : cfg.katagoOverrides = if (",".intercalate parts).isEmpty then none
      else some (",".intercalate parts) := by
    have hp : cfg.precision.map Overrides.pair
        = if cfg.fp16 && cfg.backend.isKatagoRs then ["burnUseFP16=true"] else [] := by
      unfold EngineConfig.precision
      split_ifs
      · decide
      · rfl
    rw [hparts, hp, EngineConfig.printed, List.map_map]
    rfl
  rw [hk, settings_of_isEmpty]
  show overlay (Overrides.pairsOf (",".intercalate parts)) key = _
  rw [hpairs, overlay_append, overlay_append]
  rfl

end KatagoWs
