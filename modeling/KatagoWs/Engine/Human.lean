import KatagoWs.Engine.Overrides

/-!
# Human SL profiles

`validate` checks a profile name against KataGo's grammar, `parse` normalises a submitted one.
Both slice texts at byte offsets, and a slice off a character boundary panics: a result is
`none` when the code panics.

* `Profile`          the grammar: `Profile.name` is what a profile is written as;
* `isRank_true`, `validate_ok`   what is accepted is exactly what is written so;
* `isRank_isSome`, `validate_isSome`   the one slice falls inside a character when a rank that
                     is looked at ends in a character of more than one byte;
* `returns_iff`, `grammar_exact`   both, of `validate` and `parse`.
-/

namespace KatagoWs.Human
open Lib

def byteLen (s : List Char) : Nat := textSize Char.utf8Size s

/-- `str::split_at`; `none` is its panic off a character boundary -/
def splitAt (s : List Char) (mid : Nat) : Option (List Char × List Char) := cut Char.utf8Size mid s

def parseU8 (s : List Char) : Option Nat := (parseUsize s).filter (· < 256)

def parseU16 (s : List Char) : Option Nat := (parseUsize s).filter (· < 65536)

def isRank (rank : List Char) : Option Bool :=
  match splitAt rank (byteLen rank - 1) with
  | none => none
  | some (number, unit) =>
    if number.head? = some '0' ∨ ¬ number.all Char.isDigit then some false
    else match parseU8 number, unit with
      | some kyu, ['k'] => some (decide (1 ≤ kyu ∧ kyu ≤ 20))
      | some dan, ['d'] => some (decide (1 ≤ dan ∧ dan ≤ 9))
      | _, _ => some false

def areRanks (ranks : List Char) : Option Bool :=
  match splitFirst '_' ranks with
  | some (black, white) =>
    match isRank black with
    | some true => isRank white
    | other => other
  | none => isRank ranks

def isYear (year : List Char) : Bool :=
  byteLen year == 4 && year.all Char.isDigit &&
    (parseU16 year).any fun year => 1800 ≤ year && year ≤ 2023

def valid (profile : String) : Option Bool :=
  match profile.toList.dropPrefix? "proyear_".toList with
  | some year => some (isYear year)
  | none =>
    match (profile.toList.dropPrefix? "rank_".toList).or
        (profile.toList.dropPrefix? "preaz_".toList) with
    | some ranks => areRanks ranks
    | none => some false

def unknownProfile (profile : String) : AppError :=
  .badRequest ("unknown human_profile '" ++ profile ++ "': expected rank_<R>, rank_<B>_<W>, " ++
    "preaz_<R>, preaz_<B>_<W> (R from 20k to 9d) or proyear_<1800..2023>")

/-- Check a human SL profile name, as KataGo would. -/
def validate (profile : String) : Option (AppResult Unit) :=
  (valid profile).map fun valid => if valid then .ok () else .error (unknownProfile profile)

/-- A submitted profile, normalised: an absent or blank one means none. -/
def parse (profile : Option String) : Option (AppResult (Option String)) :=
  match profile.map trim with
  | some profile =>
    if profile.isEmpty then some (.ok none)
    else (validate profile).map fun checked => checked.map fun _ => some profile
  | none => some (.ok none)

/-! ## the grammar -/

/-- KataGo's ranks: 20 kyu to 1 kyu, 1 dan to 9 dan -/
inductive Rank where
  | kyu (n : Nat) (h : 1 ≤ n ∧ n ≤ 20)
  | dan (n : Nat) (h : 1 ≤ n ∧ n ≤ 9)

def Rank.name : Rank → String
  | .kyu n _ => toString n ++ "k"
  | .dan n _ => toString n ++ "d"

inductive Era where
  | rank
  | preaz

def Era.text : Era → String
  | .rank => "rank_"
  | .preaz => "preaz_"

/-- the profiles KataGo knows -/
inductive Profile where
  | one (era : Era) (rank : Rank)
  | two (era : Era) (black white : Rank)
  | proyear (year : Nat) (h : 1800 ≤ year ∧ year ≤ 2023)

def Profile.name : Profile → String
  | .one era rank => era.text ++ rank.name
  | .two era black white => era.text ++ black.name ++ "_" ++ white.name
  | .proyear year _ => "proyear_" ++ toString year

theorem toString_toList (n : Nat) : (toString n).toList = Nat.toDigits 10 n := by
  rw [Nat.toString_eq_repr, Nat.toList_repr]

theorem Rank.kyu_toList (n : Nat) (h : 1 ≤ n ∧ n ≤ 20) :
    (Rank.kyu n h).name.toList = Nat.toDigits 10 n ++ ['k'] := by
  rw [Rank.name, String.toList_append, toString_toList]
  rfl

theorem Rank.dan_toList (n : Nat) (h : 1 ≤ n ∧ n ≤ 9) :
    (Rank.dan n h).name.toList = Nat.toDigits 10 n ++ ['d'] := by
  rw [Rank.name, String.toList_append, toString_toList]
  rfl

theorem Rank.name_toList (r : Rank) : ∃ n c, r.name.toList = Nat.toDigits 10 n ++ [c] ∧
    c ≠ '_' ∧ c.utf8Size = 1 := by
  cases r with
  | kyu n h => exact ⟨n, 'k', Rank.kyu_toList n h, by decide, rfl⟩
  | dan n h => exact ⟨n, 'd', Rank.dan_toList n h, by decide, rfl⟩

theorem isDigit_toDigits {n : Nat} {c : Char} (hc : c ∈ Nat.toDigits 10 n) : c.isDigit = true :=
  Nat.isDigit_of_mem_toDigits (by decide) (by decide) hc

theorem Rank.underscore (r : Rank) : '_' ∉ r.name.toList := by
  obtain ⟨n, c, hr, hc, _⟩ := r.name_toList
  rw [hr]
  intro h
  rcases List.mem_append.mp h with h | h
  · exact absurd (isDigit_toDigits h) (by decide)
  · exact hc (List.mem_singleton.mp h).symm

/-! ## ranks -/

/-- the text is empty or ends in a character of one byte -/
def EndsInByte (s : List Char) : Prop := ∀ c ∈ s.getLast?, c.utf8Size = 1

theorem splitAt_last (s : List Char) (c : Char) :
    splitAt (s ++ [c]) (byteLen (s ++ [c]) - 1) = if c.utf8Size = 1 then some (s, [c]) else none :=
  cut_last Char.utf8Size_pos s c

theorem isRank_isSome (rank : List Char) : (isRank rank).isSome ↔ EndsInByte rank := by
  rcases List.eq_nil_or_concat rank with rfl | ⟨s, c, rfl⟩
  · constructor
    · rintro - c hc
      cases hc
    · intro _
      rfl
  · rw [List.concat_eq_append]
    have he : EndsInByte (s ++ [c]) ↔ c.utf8Size = 1 := by
      simp [EndsInByte]
    rw [he, isRank, splitAt_last]
    split_ifs with h1
    · simp only [h1, iff_true]
      split_ifs
      · rfl
      · split <;> rfl
    · simp [h1]

theorem parse_digits {s : List Char} (hd : ∀ c ∈ s, c.isDigit = true) (hz : s.head? ≠ some '0')
    {range n : Nat} (hr : range ≤ USIZE_RANGE) :
    (parseUsize s).filter (· < range) = some n ↔ s = Nat.toDigits 10 n ∧ n < range := by
  constructor
  · intro h
    obtain ⟨hp, hlt⟩ := Option.filter_eq_some_iff.mp h
    have hlt := of_decide_eq_true hlt
    have hn : s ≠ [] := by
      rintro rfl
      cases hp
    rw [parseUsize_digits hn hd] at hp
    split_ifs at hp
    rw [← Option.some.inj hp, toDigits_ofDigitChars hn hd hz, Option.some.inj hp]
    exact ⟨rfl, hlt⟩
  · rintro ⟨rfl, hlt⟩
    have hp := parseUsize_toString (lt_of_lt_of_le hlt hr)
    rw [Nat.toString_eq_repr, Nat.toList_repr] at hp
    rw [hp, Option.filter_some, if_pos (decide_eq_true hlt)]

theorem toDigits_all (n : Nat) : (Nat.toDigits 10 n).all Char.isDigit = true :=
  List.all_eq_true.mpr fun _ hc => isDigit_toDigits hc

theorem parseU8_toDigits {n : Nat} (h : 1 ≤ n) (h256 : n < 256) :
    parseU8 (Nat.toDigits 10 n) = some n :=
  (parse_digits (fun _ hc => isDigit_toDigits hc) (head_toDigits h) (by decide)).mpr ⟨rfl, h256⟩

theorem isRank_last (s : List Char) {c : Char} (hc : c.utf8Size = 1) :
    isRank (s ++ [c]) =
      if s.head? = some '0' ∨ ¬ s.all Char.isDigit then some false
      else match parseU8 s, [c] with
        | some kyu, ['k'] => some (decide (1 ≤ kyu ∧ kyu ≤ 20))
        | some dan, ['d'] => some (decide (1 ≤ dan ∧ dan ≤ 9))
        | _, _ => some false := by
  rw [isRank, splitAt_last, if_pos hc]

theorem isRank_true (rank : List Char) :
    isRank rank = some true ↔ ∃ r : Rank, rank = r.name.toList := by
  constructor
  · intro h
    rcases List.eq_nil_or_concat rank with rfl | ⟨s, c, rfl⟩
    · cases h
    · rw [List.concat_eq_append] at h ⊢
      have hc : EndsInByte (s ++ [c]) := (isRank_isSome _).mp (h ▸ rfl)
      rw [isRank_last s (hc c (by simp))] at h
      by_cases hbad : s.head? = some '0' ∨ ¬ s.all Char.isDigit
      · rw [if_pos hbad] at h
        cases h
      · rw [if_neg hbad] at h
        obtain ⟨hz, hd⟩ := not_or.mp hbad
        have hd' : ∀ d ∈ s, d.isDigit = true := List.all_eq_true.mp (not_not.mp hd)
        split at h
        case h_1 kyu hp hu =>
          obtain ⟨rfl, -⟩ := (parse_digits hd' hz (by decide)).mp hp
          exact ⟨.kyu kyu (of_decide_eq_true (Option.some.inj h)), hu ▸ (Rank.kyu_toList _ _).symm⟩
        case h_2 dan hp hu =>
          obtain ⟨rfl, -⟩ := (parse_digits hd' hz (by decide)).mp hp
          exact ⟨.dan dan (of_decide_eq_true (Option.some.inj h)), hu ▸ (Rank.dan_toList _ _).symm⟩
        case h_3 => cases h
  · have hnumber : ∀ n, 1 ≤ n →
        ¬ ((Nat.toDigits 10 n).head? = some '0' ∨ ¬ (Nat.toDigits 10 n).all Char.isDigit) := by
      rintro n hn (h | h)
      · exact head_toDigits hn h
      · exact h (toDigits_all n)
    rintro ⟨r, rfl⟩
    cases r with
    | kyu n h =>
      rw [Rank.kyu_toList, isRank_last _ rfl, if_neg (hnumber n h.1),
        parseU8_toDigits h.1 (by omega)]
      exact congrArg some (decide_eq_true h)
    | dan n h =>
      rw [Rank.dan_toList, isRank_last _ rfl, if_neg (hnumber n h.1),
        parseU8_toDigits h.1 (by omega)]
      exact congrArg some (decide_eq_true h)

/-- the slices of `ranks` fall between characters: White's rank is only looked at after a rank -/
def RanksSliceable (ranks : List Char) : Prop :=
  ('_' ∉ ranks → EndsInByte ranks) ∧
    ∀ black white, ranks = black ++ '_' :: white → '_' ∉ black →
      EndsInByte black ∧ ((∃ r : Rank, black = r.name.toList) → EndsInByte white)

theorem areRanks_one {ranks : List Char} (h : '_' ∉ ranks) : areRanks ranks = isRank ranks := by
  rw [areRanks, splitFirst_eq_none.mpr h]

theorem areRanks_two {black : List Char} (h : '_' ∉ black) (white : List Char) :
    areRanks (black ++ '_' :: white) =
      match isRank black with
      | some true => isRank white
      | other => other := by
  rw [areRanks, splitFirst_mid h]

theorem ranks_cases (ranks : List Char) :
    '_' ∉ ranks ∨ ∃ black white, '_' ∉ black ∧ ranks = black ++ '_' :: white := by
  cases hs : splitFirst '_' ranks with
  | none => exact Or.inl (splitFirst_eq_none.mp hs)
  | some p => exact Or.inr ⟨p.1, p.2, (splitFirst_spec hs).2, (splitFirst_spec hs).1⟩

theorem areRanks_isSome (ranks : List Char) : (areRanks ranks).isSome ↔ RanksSliceable ranks := by
  rcases ranks_cases ranks with h | ⟨black, white, h, rfl⟩
  · rw [areRanks_one h, isRank_isSome]
    refine ⟨fun he => ⟨fun _ => he, ?_⟩, fun hr => hr.1 h⟩
    rintro black white rfl
    exact absurd (List.mem_append_right black List.mem_cons_self) h
  · have hr : RanksSliceable (black ++ '_' :: white) ↔
        EndsInByte black ∧ ((∃ r : Rank, black = r.name.toList) → EndsInByte white) := by
      constructor
      · exact fun hr => hr.2 black white rfl h
      · refine fun he => ⟨fun hn => absurd (List.mem_append_right _ List.mem_cons_self) hn, ?_⟩
        -- the first `_` is where it is
        intro black' white' hs h'
        have hsplit := splitFirst_mid h white
        rw [hs, splitFirst_mid h'] at hsplit
        obtain ⟨rfl, rfl⟩ := Prod.mk.inj (Option.some.inj hsplit)
        exact he
    rw [areRanks_two h, hr, ← isRank_isSome black, ← isRank_isSome white, ← isRank_true black]
    cases isRank black with
    | none => simp
    | some b => cases b <;> simp

theorem areRanks_true (ranks : List Char) : areRanks ranks = some true ↔
    (∃ r : Rank, ranks = r.name.toList) ∨
      ∃ black white : Rank, ranks = black.name.toList ++ '_' :: white.name.toList := by
  rcases ranks_cases ranks with h | ⟨black, white, h, rfl⟩
  · rw [areRanks_one h, isRank_true]
    refine ⟨Or.inl, fun hr => hr.resolve_right ?_⟩
    rintro ⟨black, white, rfl⟩
    exact h (List.mem_append_right _ List.mem_cons_self)
  · rw [areRanks_two h]
    constructor
    · intro ht
      split at ht
      case h_1 hb =>
        obtain ⟨b, rfl⟩ := (isRank_true black).mp hb
        obtain ⟨w, rfl⟩ := (isRank_true white).mp ht
        exact Or.inr ⟨b, w, rfl⟩
      case h_2 other hb => exact absurd ht hb
    · rintro (⟨r, hr⟩ | ⟨b, w, hr⟩)
      · exact absurd (hr ▸ List.mem_append_right black List.mem_cons_self) r.underscore
      · have hsplit := splitFirst_mid h white
        rw [hr, splitFirst_mid b.underscore] at hsplit
        obtain ⟨rfl, rfl⟩ := Prod.mk.inj (Option.some.inj hsplit)
        rw [(isRank_true _).mpr ⟨b, rfl⟩]
        exact (isRank_true _).mpr ⟨w, rfl⟩

/-! ## years -/

theorem byteLen_digits {s : List Char} (hd : ∀ c ∈ s, c.isDigit = true) : byteLen s = s.length := by
  induction s with
  | nil => rfl
  | cons c s ih =>
    have hc : c.utf8Size = 1 := by
      obtain ⟨d, h10, rfl⟩ := exists_digitChar (hd c List.mem_cons_self)
      interval_cases d <;> rfl
    rw [byteLen, textSize_cons, hc, ← byteLen, ih fun c hc => hd c (List.mem_cons_of_mem _ hc),
      List.length_cons, Nat.add_comm]

theorem isYear_iff (year : List Char) :
    isYear year = true ↔ ∃ y, (1800 ≤ y ∧ y ≤ 2023) ∧ year = Nat.toDigits 10 y := by
  rw [isYear, Bool.and_eq_true, Bool.and_eq_true, beq_iff_eq, Option.any_eq_true]
  constructor
  · rintro ⟨⟨hlen, hall⟩, y, hp, hy⟩
    have hd : ∀ c ∈ year, c.isDigit = true := List.all_eq_true.mp hall
    rw [Bool.and_eq_true, decide_eq_true_iff, decide_eq_true_iff] at hy
    rw [byteLen_digits hd] at hlen
    have hz : year.head? ≠ some '0' := by
      -- a leading zero would leave three digits, and a year before 1000
      intro h0
      obtain ⟨rest, rfl⟩ := List.head?_eq_some_iff.mp h0
      have hr : ∀ c ∈ rest, c.isDigit = true := fun c hc => hd c (List.mem_cons_of_mem _ hc)
      have hlt := ofDigitChars_lt hr
      have h3 : rest.length = 3 := Nat.succ.inj hlen
      obtain ⟨hp, -⟩ := Option.filter_eq_some_iff.mp hp
      rw [parseUsize_digits (List.cons_ne_nil _ _) hd] at hp
      split_ifs at hp
      have hv : Nat.ofDigitChars 10 ('0' :: rest) 0 = Nat.ofDigitChars 10 rest 0 :=
        Nat.ofDigitChars_cons
      have hval := Option.some.inj hp
      rw [h3] at hlt
      omega
    exact ⟨y, hy, ((parse_digits hd hz (by decide)).mp hp).1⟩
  · rintro ⟨y, hy, rfl⟩
    have hle : (Nat.toDigits 10 y).length ≤ 4 :=
      (Nat.length_toDigits_le_iff (by decide) (by decide)).mpr (by omega)
    have hge : ¬ (Nat.toDigits 10 y).length ≤ 3 := by
      rw [Nat.length_toDigits_le_iff (by decide) (by decide)]
      omega
    have hp : parseU16 (Nat.toDigits 10 y) = some y :=
      (parse_digits (fun _ hc => isDigit_toDigits hc) (head_toDigits (by omega)) (by decide)).mpr
        ⟨rfl, by omega⟩
    refine ⟨⟨?_, toDigits_all y⟩, y, hp, ?_⟩
    · rw [byteLen_digits fun _ hc => isDigit_toDigits hc]
      omega
    · rw [decide_eq_true hy.1, decide_eq_true hy.2, Bool.and_self]

/-! ## profiles -/

theorem dropPrefix_iff {s p r : List Char} : s.dropPrefix? p = some r ↔ s = p ++ r := by
  rw [List.dropPrefix?_eq_some_iff]
  constructor
  · rintro ⟨p', hs, hp⟩
    rw [hs, eq_of_beq hp]
  · intro hs
    exact ⟨p, hs, beq_self_eq_true p⟩

theorem dropPrefix_none {s p : List Char} : s.dropPrefix? p = none ↔ ∀ r, s ≠ p ++ r := by
  rw [Option.eq_none_iff_forall_ne_some]
  exact forall_congr' fun r => not_congr dropPrefix_iff

theorem valid_proyear {profile : String} {year : List Char}
    (h : profile.toList = "proyear_".toList ++ year) : valid profile = some (isYear year) := by
  rw [valid, dropPrefix_iff.mpr h]

theorem proyear_ne (era : Era) (year ranks : List Char) :
    "proyear_".toList ++ year ≠ era.text.toList ++ ranks := by
  intro h
  cases era with
  | rank => exact absurd (List.cons.inj h).1 (by decide)
  | preaz => exact absurd (List.cons.inj (List.cons.inj (List.cons.inj h).2).2).1 (by decide)

theorem valid_ranks {profile : String} {era : Era} {ranks : List Char}
    (h : profile.toList = era.text.toList ++ ranks) : valid profile = areRanks ranks := by
  have hy : profile.toList.dropPrefix? "proyear_".toList = none := by
    rw [h, dropPrefix_none]
    exact fun year => (proyear_ne era year ranks).symm
  cases era with
  | rank =>
    have hr : profile.toList.dropPrefix? "rank_".toList = some ranks := dropPrefix_iff.mpr h
    rw [valid, hy, hr]
    rfl
  | preaz =>
    have hn : profile.toList.dropPrefix? "rank_".toList = none := by
      rw [h, dropPrefix_none]
      intro r hr
      exact absurd (List.cons.inj hr).1 (by decide)
    have hr : profile.toList.dropPrefix? "preaz_".toList = some ranks := dropPrefix_iff.mpr h
    rw [valid, hy, hn, hr]
    rfl

theorem valid_other {profile : String} (hy : ∀ year, profile.toList ≠ "proyear_".toList ++ year)
    (hr : ∀ (era : Era) ranks, profile.toList ≠ era.text.toList ++ ranks) :
    valid profile = some false := by
  have hrank : profile.toList.dropPrefix? "rank_".toList = none := dropPrefix_none.mpr (hr .rank)
  have hpreaz : profile.toList.dropPrefix? "preaz_".toList = none := dropPrefix_none.mpr (hr .preaz)
  rw [valid, dropPrefix_none.mpr hy, hrank, hpreaz]
  rfl

theorem profile_cases (profile : String) :
    (∃ year, profile.toList = "proyear_".toList ++ year) ∨
      (∃ (era : Era) (ranks : List Char), profile.toList = era.text.toList ++ ranks) ∨
      valid profile = some false ∧
        ∀ (era : Era) ranks, profile.toList ≠ era.text.toList ++ ranks := by
  by_cases hy : ∃ year, profile.toList = "proyear_".toList ++ year
  · exact Or.inl hy
  · by_cases hr : ∃ (era : Era) (ranks : List Char), profile.toList = era.text.toList ++ ranks
    · exact Or.inr (Or.inl hr)
    · have hy' : ∀ year, profile.toList ≠ "proyear_".toList ++ year := fun year h => hy ⟨year, h⟩
      have hr' : ∀ (era : Era) ranks, profile.toList ≠ era.text.toList ++ ranks :=
        fun era ranks h => hr ⟨era, ranks, h⟩
      exact Or.inr (Or.inr ⟨valid_other hy' hr', hr'⟩)

/-- the slices of a profile name fall between characters -/
def Sliceable (profile : String) : Prop :=
  ∀ (era : Era) ranks, profile.toList = era.text.toList ++ ranks → RanksSliceable ranks

theorem valid_isSome (profile : String) : (valid profile).isSome ↔ Sliceable profile := by
  rcases profile_cases profile with ⟨year, h⟩ | ⟨era, ranks, h⟩ | ⟨hv, hn⟩
  · rw [valid_proyear h]
    refine ⟨fun _ era ranks hr => ?_, fun _ => rfl⟩
    exact absurd (h.symm.trans hr) (proyear_ne era year ranks)
  · rw [valid_ranks h, areRanks_isSome]
    refine ⟨fun hr era' ranks' h' => ?_, fun hs => hs era ranks h⟩
    have hv := (valid_ranks h).symm.trans (valid_ranks h')
    rwa [← areRanks_isSome, ← hv, areRanks_isSome]
  · rw [hv]
    exact ⟨fun _ era ranks hr => absurd hr (hn era ranks), fun _ => rfl⟩

theorem Profile.two_toList (era : Era) (black white : Rank) :
    (Profile.two era black white).name.toList =
      era.text.toList ++ (black.name.toList ++ '_' :: white.name.toList) := by
  rw [Profile.name, String.toList_append, String.toList_append, String.toList_append,
    List.append_assoc, List.append_assoc]
  rfl

theorem Profile.one_toList (era : Era) (rank : Rank) :
    (Profile.one era rank).name.toList = era.text.toList ++ rank.name.toList := by
  rw [Profile.name, String.toList_append]

theorem Profile.proyear_toList (year : Nat) (h : 1800 ≤ year ∧ year ≤ 2023) :
    (Profile.proyear year h).name.toList = "proyear_".toList ++ Nat.toDigits 10 year := by
  rw [Profile.name, String.toList_append, toString_toList]

theorem valid_true (profile : String) :
    valid profile = some true ↔ ∃ p : Profile, profile = p.name := by
  constructor
  · intro ht
    rcases profile_cases profile with ⟨year, h⟩ | ⟨era, ranks, h⟩ | ⟨hv, -⟩
    · rw [valid_proyear h] at ht
      obtain ⟨y, hy, rfl⟩ := (isYear_iff year).mp (Option.some.inj ht)
      refine ⟨.proyear y hy, String.toList_injective ?_⟩
      rw [h, Profile.proyear_toList]
    · rw [valid_ranks h] at ht
      rcases (areRanks_true ranks).mp ht with ⟨r, rfl⟩ | ⟨black, white, rfl⟩
      · refine ⟨.one era r, String.toList_injective ?_⟩
        rw [h, Profile.one_toList]
      · refine ⟨.two era black white, String.toList_injective ?_⟩
        rw [h, Profile.two_toList]
    · rw [hv] at ht
      cases ht
  · rintro ⟨p, rfl⟩
    cases p with
    | one era rank =>
      rw [valid_ranks (Profile.one_toList era rank)]
      exact (areRanks_true _).mpr (Or.inl ⟨rank, rfl⟩)
    | two era black white =>
      rw [valid_ranks (Profile.two_toList era black white)]
      exact (areRanks_true _).mpr (Or.inr ⟨black, white, rfl⟩)
    | proyear year h =>
      rw [valid_proyear (Profile.proyear_toList year h)]
      exact congrArg some ((isYear_iff _).mpr ⟨year, h, rfl⟩)

/-! ## what is checked and what is kept -/

theorem validate_isSome (profile : String) : (validate profile).isSome ↔ Sliceable profile := by
  rw [validate, Option.isSome_map, valid_isSome]

theorem validate_ok (profile : String) :
    validate profile = some (.ok ()) ↔ ∃ p : Profile, profile = p.name := by
  rw [← valid_true, validate, Option.map_eq_some_iff]
  constructor
  · rintro ⟨b, hb, hr⟩
    cases b with
    | true => exact hb
    | false => cases hr
  · intro h
    exact ⟨true, h, rfl⟩

def Blank (profile : String) : Prop := ∀ c ∈ profile.toList, isWhiteSpace c = true

theorem trim_isEmpty (profile : String) : (trim profile).isEmpty = true ↔ Blank profile := by
  rw [String.isEmpty_iff, ← String.toList_inj, trim_toList]
  exact strip_eq_nil

theorem parse_blank {profile : String} (h : Blank profile) :
    parse (some profile) = some (.ok none) :=
  if_pos ((trim_isEmpty profile).mpr h)

theorem parse_some {profile : String} (h : ¬ Blank profile) :
    parse (some profile) = (validate (trim profile)).map fun checked =>
      checked.map fun _ => some (trim profile) :=
  if_neg fun he => h ((trim_isEmpty profile).mp he)

theorem parse_isSome (profile : String) :
    (parse (some profile)).isSome ↔ Sliceable (trim profile) := by
  by_cases h : Blank profile
  · have he : trim profile = "" := String.isEmpty_iff.mp ((trim_isEmpty profile).mpr h)
    rw [parse_blank h, he, ← validate_isSome]
    exact ⟨fun _ => rfl, fun _ => rfl⟩
  · rw [parse_some h, Option.isSome_map, validate_isSome]

/-- **When the checks return**: `validate` exactly on the names whose slices fall between
characters, and `parse` exactly when the trimmed name is one. -/
theorem returns_iff (profile : String) :
    ((validate profile).isSome ↔ Sliceable profile) ∧
      ((parse (some profile)).isSome ↔ Sliceable (trim profile)) ∧ (parse none).isSome :=
  ⟨validate_isSome profile, parse_isSome profile, rfl⟩

/-- a rank that ends in a character of two bytes -/
theorem returns_not : ¬ ((validate "rank_5é").isSome ∧ (parse (some "rank_5é")).isSome) := by
  decide

theorem Profile.name_ne (p : Profile) : p.name ≠ "" := by
  intro h
  have hv : valid "" = some true := (valid_true "").mpr ⟨p, h.symm⟩
  exact absurd hv (by decide)

theorem parse_accepts (input : Option String) (name : String) :
    parse input = some (.ok (some name)) ↔
      ∃ s, input = some s ∧ name = trim s ∧ ∃ p : Profile, name = p.name := by
  constructor
  · intro h
    cases input with
    | none => cases h
    | some s =>
      by_cases hb : Blank s
      · rw [parse_blank hb] at h
        cases h
      · rw [parse_some hb] at h
        obtain ⟨checked, hv, hc⟩ := Option.map_eq_some_iff.mp h
        cases checked with
        | error e => cases hc
        | ok u =>
          obtain rfl : trim s = name := Option.some.inj (Except.ok.inj hc)
          exact ⟨s, rfl, rfl, (validate_ok _).mp hv⟩
  · rintro ⟨s, rfl, rfl, p, hp⟩
    have hb : ¬ Blank s := by
      intro hb
      exact p.name_ne (hp ▸ String.isEmpty_iff.mp ((trim_isEmpty s).mpr hb))
    rw [parse_some hb, (validate_ok _).mpr ⟨p, hp⟩]
    rfl

theorem parse_absent (input : Option String) :
    parse input = some (.ok none) ↔ input = none ∨ ∃ s, input = some s ∧ Blank s := by
  constructor
  · intro h
    cases input with
    | none => exact Or.inl rfl
    | some s =>
      refine Or.inr ⟨s, rfl, ?_⟩
      by_contra hb
      rw [parse_some hb] at h
      obtain ⟨checked, -, hc⟩ := Option.map_eq_some_iff.mp h
      cases checked with
      | error e => cases hc
      | ok u => cases hc
  · rintro (rfl | ⟨s, rfl, hb⟩)
    · rfl
    · exact parse_blank hb

/-- **The grammar**: a name is accepted exactly when it is written as a profile is, and what is
kept of a submitted one is the trimmed name of a profile, or nothing of a blank one. -/
theorem grammar_exact :
    (∀ profile, validate profile = some (.ok ()) ↔ ∃ p : Profile, profile = p.name) ∧
      ∀ input,
        (∀ name, parse input = some (.ok (some name)) ↔
          ∃ s, input = some s ∧ name = trim s ∧ ∃ p : Profile, name = p.name) ∧
        (parse input = some (.ok none) ↔ input = none ∨ ∃ s, input = some s ∧ Blank s) :=
  ⟨validate_ok, fun input => ⟨parse_accepts input, parse_absent input⟩⟩

end KatagoWs.Human
