import Mathlib.Data.List.DropRight
import Mathlib.Tactic.IntervalCases

/-!
# Fields of a text

A text is a list of symbols.  `strip` takes the blanks around it away, `splitFirst` cuts it at
the first separator, a list of fields is joined by a separator and split at it again, and `cut`
takes a prefix of a given size off a text whose symbols have sizes.

* `strip_pad`        blanks around a text do not change what `strip` leaves of it;
* `splitFirst_mid`, `splitFirst_spec`   the cut is at the first separator;
* `splitFirst_pad`   text around a text, without the separator, goes to the two sides of the cut;
* `filterMap_fields` the fields of a joined list are the fields it was joined from;
* `cut_eq_some`, `cut_last`   a cut only falls between two symbols, one before the end only when
                     the last symbol has size one;
* `toDigits_ofDigitChars`   a number is written in one way only without leading zeros.
-/

namespace Lib

section
variable {A : Type*}

def strip (blank : A → Bool) (l : List A) : List A := (l.dropWhile blank).rdropWhile blank

theorem rdropWhile_append_blank {blank : A → Bool} {b : List A} (hb : ∀ c ∈ b, blank c = true)
    (l : List A) : (l ++ b).rdropWhile blank = l.rdropWhile blank := by
  have hr : ∀ c ∈ b.reverse, blank c = true := fun c hc => hb c (List.mem_reverse.mp hc)
  rw [List.rdropWhile, List.reverse_append, List.dropWhile_append_of_pos hr]
  rfl

theorem strip_append {blank : A → Bool} {b : List A} (hb : ∀ c ∈ b, blank c = true)
    (l : List A) : strip blank (l ++ b) = strip blank l := by
  unfold strip
  rw [List.dropWhile_append]
  by_cases h : (l.dropWhile blank).isEmpty = true
  · -- all of `l` is blank, and nothing is left of either side
    have hd : b.dropWhile blank = [] := List.dropWhile_eq_nil_iff.mpr hb
    rw [if_pos h, hd, List.isEmpty_iff.mp h]
  · rw [if_neg h, rdropWhile_append_blank hb]

theorem strip_pad {blank : A → Bool} {a b : List A} (ha : ∀ c ∈ a, blank c = true)
    (hb : ∀ c ∈ b, blank c = true) (l : List A) : strip blank (a ++ l ++ b) = strip blank l := by
  rw [strip_append hb, strip, List.dropWhile_append_of_pos ha, strip]

theorem exists_strip (blank : A → Bool) (l : List A) :
    ∃ a b, (∀ c ∈ a, blank c = true) ∧ (∀ c ∈ b, blank c = true) ∧ l = a ++ strip blank l ++ b := by
  refine ⟨l.takeWhile blank, (l.dropWhile blank).rtakeWhile blank, ?_, ?_, ?_⟩
  · exact fun c hc => List.mem_takeWhile_imp hc
  · exact fun c hc => List.mem_rtakeWhile_imp hc
  · rw [List.append_assoc, strip, List.rdropWhile_append_rtakeWhile,
      List.takeWhile_append_dropWhile]

theorem strip_strip (blank : A → Bool) (l : List A) :
    strip blank (strip blank l) = strip blank l := by
  obtain ⟨a, b, ha, hb, hl⟩ := exists_strip blank l
  have hp := strip_pad ha hb (strip blank l)
  rw [← hl] at hp
  exact hp.symm

theorem mem_strip {blank : A → Bool} {l : List A} {c : A} (h : c ∈ strip blank l) : c ∈ l := by
  obtain ⟨a, b, _, _, hl⟩ := exists_strip blank l
  rw [hl]
  exact List.mem_append_left b (List.mem_append_right a h)

theorem strip_eq_self {blank : A → Bool} {l : List A} (h : ∀ c ∈ l, blank c = false) :
    strip blank l = l := by
  have hd : l.dropWhile blank = l := by
    rw [List.dropWhile_eq_self_iff]
    intro hl
    rw [h _ (List.getElem_mem hl)]
    exact Bool.false_ne_true
  rw [strip, hd, List.rdropWhile_eq_self_iff]
  intro hl
  rw [h _ (List.getLast_mem hl)]
  exact Bool.false_ne_true

theorem strip_eq_nil {blank : A → Bool} {l : List A} :
    strip blank l = [] ↔ ∀ c ∈ l, blank c = true := by
  constructor
  · intro h c hc
    obtain ⟨a, b, ha, hb, hl⟩ := exists_strip blank l
    rw [h, List.append_nil] at hl
    rw [hl] at hc
    exact (List.mem_append.mp hc).elim (ha c) (hb c)
  · intro h
    have hd : l.dropWhile blank = [] := List.dropWhile_eq_nil_iff.mpr h
    rw [strip, hd, List.rdropWhile_nil]

/-! ## the first separator -/

variable [DecidableEq A]

/-- the text before the first `c` and the text after it -/
def splitFirst (c : A) : List A → Option (List A × List A)
  | [] => none
  | d :: l => if d = c then some ([], l) else (splitFirst c l).map fun p => (d :: p.1, p.2)

theorem splitFirst_mid {c : A} {a : List A} (h : c ∉ a) (b : List A) :
    splitFirst c (a ++ c :: b) = some (a, b) := by
  induction a with
  | nil => exact if_pos rfl
  | cons d a ih =>
    have hd : d ≠ c := fun hd => h (hd ▸ List.mem_cons_self)
    have ha : c ∉ a := fun ha => h (List.mem_cons_of_mem d ha)
    rw [List.cons_append, splitFirst, if_neg hd, ih ha]
    rfl

theorem splitFirst_spec {c : A} {l a b : List A} (h : splitFirst c l = some (a, b)) :
    l = a ++ c :: b ∧ c ∉ a := by
  induction l generalizing a with
  | nil => cases h
  | cons d l ih =>
    unfold splitFirst at h
    split_ifs at h with hd
    · obtain ⟨rfl, rfl⟩ := Prod.mk.inj (Option.some.inj h)
      exact ⟨by rw [hd, List.nil_append], List.not_mem_nil⟩
    · obtain ⟨⟨x, y⟩, hs, he⟩ := Option.map_eq_some_iff.mp h
      obtain ⟨rfl, rfl⟩ := Prod.mk.inj he
      obtain ⟨hl, hx⟩ := ih hs
      refine ⟨by rw [hl, List.cons_append], fun hc => ?_⟩
      rcases List.mem_cons.mp hc with hc | hc
      · exact hd hc.symm
      · exact hx hc

theorem splitFirst_eq_none {c : A} {l : List A} : splitFirst c l = none ↔ c ∉ l := by
  induction l with
  | nil => simp [splitFirst]
  | cons d l ih =>
    rw [splitFirst, List.mem_cons, not_or, ← ih]
    by_cases hd : d = c
    · simp [hd]
    · simp [hd, Ne.symm hd]

theorem splitFirst_pad {c : A} {a b : List A} (ha : c ∉ a) (hb : c ∉ b) (l : List A) :
    splitFirst c (a ++ l ++ b) = (splitFirst c l).map fun p => (a ++ p.1, p.2 ++ b) := by
  cases hs : splitFirst c l with
  | none =>
    have hl : c ∉ l := splitFirst_eq_none.mp hs
    refine splitFirst_eq_none.mpr fun hc => ?_
    rcases List.mem_append.mp hc with hc | hc
    · rcases List.mem_append.mp hc with hc | hc
      · exact ha hc
      · exact hl hc
    · exact hb hc
  | some p =>
    obtain ⟨hl, hp⟩ := splitFirst_spec hs
    have hap : c ∉ a ++ p.1 := fun hc => (List.mem_append.mp hc).elim ha hp
    have he : a ++ l ++ b = (a ++ p.1) ++ c :: (p.2 ++ b) := by
      rw [hl]
      simp only [List.append_assoc, List.cons_append]
    rw [he, splitFirst_mid hap]
    rfl

/-! ## fields -/

theorem not_mem_of_mem_splitOn {sep : A} {l field : List A} (h : field ∈ l.splitOn sep) :
    sep ∉ field := by
  induction l generalizing field with
  | nil => exact List.mem_singleton.mp h ▸ List.not_mem_nil
  | cons c l ih =>
    rw [List.splitOn_cons_eq_if_modifyHead] at h
    by_cases hc : (c == sep) = true
    · rw [if_pos hc] at h
      rcases List.mem_cons.mp h with rfl | h
      · exact List.not_mem_nil
      · exact ih h
    · -- the symbol goes to the first field of the rest
      rw [if_neg hc] at h
      obtain ⟨first, rest, hr⟩ := List.exists_cons_of_ne_nil (List.splitOn_ne_nil sep l)
      rw [hr, List.modifyHead_cons] at h
      rcases List.mem_cons.mp h with rfl | h
      · intro hm
        rcases List.mem_cons.mp hm with hm | hm
        · exact hc (beq_iff_eq.mpr hm.symm)
        · exact ih (hr ▸ List.mem_cons_self) hm
      · exact ih (hr ▸ List.mem_cons_of_mem _ h)

/-- **A list of fields**, joined by a separator none of them has and split at it again, is read
as it was: the one field of an empty text counts for none. -/
theorem filterMap_fields {B : Type*} {sep : A} {f : List A → Option B} (hf : f [] = none)
    {fields : List (List A)} (h : ∀ l ∈ fields, sep ∉ l) :
    (([sep].intercalate fields).splitOn sep).filterMap f = fields.filterMap f := by
  by_cases hn : fields = []
  · subst hn
    show ([] :: []).filterMap f = []
    rw [List.filterMap_cons_none hf, List.filterMap_nil]
  · rw [List.splitOn_intercalate sep h hn]

end

/-! ## symbols with a size -/

section
variable {A : Type*} (size : A → Nat)

def textSize (l : List A) : Nat := (l.map size).sum

/-- the prefix of size `n` and the rest; `none` when `n` falls inside a symbol or past the end -/
def cut : Nat → List A → Option (List A × List A)
  | 0, l => some ([], l)
  | _ + 1, [] => none
  | n + 1, c :: l =>
    if size c ≤ n + 1 then (cut (n + 1 - size c) l).map fun p => (c :: p.1, p.2) else none

@[simp] theorem textSize_nil : textSize size [] = 0 := rfl

@[simp] theorem textSize_cons (c : A) (l : List A) :
    textSize size (c :: l) = size c + textSize size l := by
  rw [textSize, List.map_cons, List.sum_cons, textSize]

@[simp] theorem textSize_append (a b : List A) :
    textSize size (a ++ b) = textSize size a + textSize size b := by
  rw [textSize, List.map_append, List.sum_append, textSize, textSize]

variable {size}

theorem cut_eq_some (hs : ∀ c, 0 < size c) {n : Nat} {l a b : List A} :
    cut size n l = some (a, b) ↔ l = a ++ b ∧ textSize size a = n := by
  induction l generalizing n a with
  | nil =>
    cases n with
    | zero =>
      cases a with
      | nil => simp [cut]
      | cons c a => simp [cut]
    | succ n =>
      constructor
      · intro h
        cases h
      · rintro ⟨hl, hn⟩
        rw [(List.append_eq_nil_iff.mp hl.symm).1] at hn
        cases hn
  | cons c l ih =>
    have hc : 0 < size c := hs c
    cases n with
    | zero =>
      cases a with
      | nil => simp [cut]
      | cons d a =>
        have hd : 0 < size d := hs d
        simp [cut]
        omega
    | succ n =>
      unfold cut
      cases a with
      | nil =>
        split_ifs <;> simp
      | cons d a =>
        rw [List.cons_append, textSize_cons, List.cons.injEq]
        split_ifs with hn
        · -- the first symbol is before the cut
          rw [Option.map_eq_some_iff]
          constructor
          · rintro ⟨p, hp, he⟩
            rw [Prod.mk.injEq, List.cons.injEq] at he
            obtain ⟨⟨rfl, rfl⟩, rfl⟩ := he
            obtain ⟨hl, hx⟩ := ih.mp hp
            exact ⟨⟨rfl, hl⟩, by omega⟩
          · rintro ⟨⟨rfl, hl⟩, hx⟩
            exact ⟨(a, b), ih.mpr ⟨hl, by omega⟩, rfl⟩
        · constructor
          · intro h
            cases h
          · rintro ⟨⟨rfl, -⟩, hx⟩
            omega

/-- **One before the end**: the cut falls on the last symbol, which must have size one. -/
theorem cut_last (hs : ∀ c, 0 < size c) (l : List A) (c : A) :
    cut size (textSize size (l ++ [c]) - 1) (l ++ [c]) =
      if size c = 1 then some (l, [c]) else none := by
  have ht : textSize size (l ++ [c]) = textSize size l + size c := by
    rw [textSize_append, textSize_cons, textSize_nil, Nat.add_zero]
  have hc : 0 < size c := hs c
  split_ifs with h1
  · exact (cut_eq_some hs).mpr ⟨rfl, by omega⟩
  · rw [Option.eq_none_iff_forall_not_mem]
    rintro ⟨a, b⟩ hab
    obtain ⟨hl, ha⟩ := (cut_eq_some hs).mp hab
    rcases List.eq_nil_or_concat b with rfl | ⟨b, d, rfl⟩
    · rw [List.append_nil] at hl
      rw [← hl] at ha
      omega
    · -- what is before the cut is a prefix of `l`, which is too short
      rw [List.concat_eq_append, ← List.append_assoc] at hl
      obtain ⟨hl, -⟩ := List.append_inj' hl rfl
      have hsum : textSize size l = textSize size a + textSize size b := by
        rw [hl, textSize_append]
      omega

end

/-! ## decimal numbers -/

theorem exists_digitChar {c : Char} (h : c.isDigit = true) : ∃ d < 10, c = Nat.digitChar d := by
  obtain ⟨h0, h9⟩ := Char.isDigit_iff_toNat.mp h
  have h0' : 48 ≤ c.toNat := h0
  have h9' : c.toNat ≤ 57 := h9
  refine ⟨c.toNat - 48, by omega, ?_⟩
  conv_lhs => rw [← Char.ofNat_toNat c]
  generalize c.toNat = n at h0' h9'
  interval_cases n <;> rfl

theorem ofDigitChars_lt {cs : List Char} (hd : ∀ c ∈ cs, c.isDigit = true) :
    Nat.ofDigitChars 10 cs 0 < 10 ^ cs.length := by
  induction cs with
  | nil => decide
  | cons c cs ih =>
    obtain ⟨d, h10, rfl⟩ := exists_digitChar (hd c List.mem_cons_self)
    have hi := ih fun c hc => hd c (List.mem_cons_of_mem _ hc)
    rw [Nat.ofDigitChars_cons_digitChar_of_lt_ten h10, Nat.mul_zero, Nat.zero_add,
      Nat.ofDigitChars_eq_ofDigitChars_zero, List.length_cons, pow_succ]
    calc 10 ^ cs.length * d + Nat.ofDigitChars 10 cs 0
      _ < 10 ^ cs.length * d + 10 ^ cs.length := Nat.add_lt_add_left hi _
      _ = 10 ^ cs.length * (d + 1) := (Nat.mul_succ _ _).symm
      _ ≤ 10 ^ cs.length * 10 := Nat.mul_le_mul_left _ h10

theorem toDigits_ofDigitChars_append {cs : List Char} (hd : ∀ c ∈ cs, c.isDigit = true) {n : Nat}
    (hn : 0 < n) : Nat.toDigits 10 (Nat.ofDigitChars 10 cs n) = Nat.toDigits 10 n ++ cs := by
  induction cs generalizing n with
  | nil => rw [Nat.ofDigitChars_nil, List.append_nil]
  | cons c cs ih =>
    obtain ⟨d, h10, rfl⟩ := exists_digitChar (hd c List.mem_cons_self)
    have hc := Nat.toDigits_append_toDigits (by decide : 1 < 10) hn h10
    rw [Nat.toDigits_of_lt_base h10] at hc
    rw [Nat.ofDigitChars_cons_digitChar_of_lt_ten h10,
      ih (fun c hc => hd c (List.mem_cons_of_mem _ hc)) (by omega), ← hc, List.append_assoc]
    rfl

/-- A number is written in one way only without leading zeros. -/
theorem toDigits_ofDigitChars {cs : List Char} (hn : cs ≠ []) (hd : ∀ c ∈ cs, c.isDigit = true)
    (hz : cs.head? ≠ some '0') : Nat.toDigits 10 (Nat.ofDigitChars 10 cs 0) = cs := by
  cases cs with
  | nil => exact absurd rfl hn
  | cons c cs =>
    obtain ⟨d, h10, rfl⟩ := exists_digitChar (hd c List.mem_cons_self)
    have hpos : 0 < d := by
      rw [Nat.pos_iff_ne_zero]
      rintro rfl
      exact hz rfl
    rw [Nat.ofDigitChars_cons_digitChar_of_lt_ten h10, Nat.mul_zero, Nat.zero_add,
      toDigits_ofDigitChars_append (fun c hc => hd c (List.mem_cons_of_mem _ hc)) hpos,
      Nat.toDigits_of_lt_base h10]
    rfl

theorem head_toDigits {n : Nat} (hn : 0 < n) : (Nat.toDigits 10 n).head? ≠ some '0' := by
  induction n using Nat.strong_induction_on with
  | _ n ih =>
    by_cases h10 : n < 10
    · rw [Nat.toDigits_of_lt_base h10]
      interval_cases n <;> decide
    · have hlt : n / 10 < n := Nat.div_lt_self hn (by decide)
      have hpos : 0 < n / 10 := Nat.div_pos (by omega) (by decide)
      obtain ⟨c, cs, hc⟩ := List.exists_cons_of_ne_nil (Nat.toDigits_ne_nil (n := n / 10) (b := 10))
      rw [Nat.toDigits_of_base_le (by decide) (by omega), hc]
      have hi := ih _ hlt hpos
      rw [hc] at hi
      exact hi

end Lib
