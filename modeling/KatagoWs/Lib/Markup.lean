import Mathlib.Data.List.Basic

/-!
# Reading markup

A page is read character by character into tags and the characters shown between them.  A tag
runs from `<` to `>`, where a quoted value of an attribute may hold any character; `&name;` is
shown as the character it names.

* `read`          the tokens of a piece of a page, and where it ends;
* `Closed`        a piece that ends between tags: what follows is read as if it stood alone
                  (`tokens_append`);
* `read_plain`    text without `<` and `&` is shown as it is.
-/

namespace Lib
namespace Markup

def QUOTE : Char := Char.ofNat 34

def APOSTROPHE : Char := Char.ofNat 39

inductive Token where
  | tag (text : List Char)
  | chr (c : Char)
deriving DecidableEq

/-- between tags, in a tag, in a quoted value of one, or in a reference -/
inductive Mode where
  | text
  | tag (acc : List Char)
  | quoted (quote : Char) (acc : List Char)
  | ref (acc : List Char)
deriving DecidableEq

def refs : List (List Char × Char) :=
  [("amp".toList, '&'), ("lt".toList, '<'), ("gt".toList, '>'), ("quot".toList, QUOTE),
    ("#39".toList, APOSTROPHE)]

def refChar (name : List Char) : Option Char := (refs.find? fun e => e.1 == name).map Prod.snd

def shown (cs : List Char) : List Token := cs.map .chr

def step : Mode → Char → List Token × Mode
  | .text, c =>
    if c = '<' then ([], .tag [])
    else if c = '&' then ([], .ref [])
    else ([.chr c], .text)
  | .tag acc, c =>
    if c = '>' then ([.tag acc], .text)
    else if c = QUOTE ∨ c = APOSTROPHE then ([], .quoted c (acc ++ [c]))
    else ([], .tag (acc ++ [c]))
  | .quoted quote acc, c =>
    ([], if c = quote then .tag (acc ++ [c]) else .quoted quote (acc ++ [c]))
  | .ref acc, c =>
    if c = ';' then
      match refChar acc with
      | some ch => ([.chr ch], .text)
      | none => (shown ('&' :: acc ++ [';']), .text)
    else if c = '<' then (shown ('&' :: acc), .tag [])
    else if c = '&' then (shown ('&' :: acc), .ref [])
    else ([], .ref (acc ++ [c]))

def read : Mode → List Char → List Token × Mode
  | m, [] => ([], m)
  | m, c :: cs => ((step m c).1 ++ (read (step m c).2 cs).1, (read (step m c).2 cs).2)

/-- what is left at the end of the page: the beginning of a reference is shown -/
def Mode.flush : Mode → List Token
  | .ref acc => shown ('&' :: acc)
  | _ => []

def tokens (cs : List Char) : List Token :=
  (read .text cs).1 ++ (read .text cs).2.flush

def Token.isTag : Token → Bool
  | .tag _ => true
  | .chr _ => false

def tags (cs : List Char) : List Token := (tokens cs).filter Token.isTag

theorem read_append (m : Mode) (a b : List Char) :
    read m (a ++ b) = ((read m a).1 ++ (read (read m a).2 b).1, (read (read m a).2 b).2) := by
  induction a generalizing m with
  | nil => rfl
  | cons c a ih =>
    rw [List.cons_append, read, read, ih]
    dsimp only
    rw [List.append_assoc]

/-- a piece that ends between tags -/
def Closed (cs : List Char) : Prop := (read .text cs).2 = .text

instance (cs : List Char) : Decidable (Closed cs) :=
  inferInstanceAs (Decidable ((read .text cs).2 = .text))

theorem Closed.tokens {a : List Char} (h : Closed a) : tokens a = (read .text a).1 := by
  unfold Markup.tokens
  rw [show (read .text a).2 = .text from h]
  exact List.append_nil _

/-- **What follows a closed piece** is read as if it stood alone. -/
theorem tokens_append {a : List Char} (h : Closed a) (b : List Char) :
    Markup.tokens (a ++ b) = Markup.tokens a ++ Markup.tokens b := by
  rw [h.tokens]
  unfold Markup.tokens
  rw [read_append, show (read .text a).2 = .text from h, List.append_assoc]

/-- a piece shown as the characters `cs` -/
def ReadsAs (a cs : List Char) : Prop := read .text a = (shown cs, .text)

instance (a cs : List Char) : Decidable (ReadsAs a cs) :=
  inferInstanceAs (Decidable (read .text a = (shown cs, .text)))

theorem ReadsAs.closed {a cs : List Char} (h : ReadsAs a cs) : Closed a := congrArg Prod.snd h

theorem ReadsAs.tokens {a cs : List Char} (h : ReadsAs a cs) : Markup.tokens a = shown cs := by
  rw [h.closed.tokens, show read .text a = _ from h]

theorem ReadsAs.append {a b cs ds : List Char} (ha : ReadsAs a cs) (hb : ReadsAs b ds) :
    ReadsAs (a ++ b) (cs ++ ds) := by
  unfold ReadsAs at *
  rw [read_append, ha, hb]
  unfold shown
  rw [List.map_append]

theorem ReadsAs.flatMap {f g : Char → List Char} (h : ∀ c, ReadsAs (f c) (g c)) (cs : List Char) :
    ReadsAs (cs.flatMap f) (cs.flatMap g) := by
  induction cs with
  | nil => rfl
  | cons c cs ih =>
    rw [List.flatMap_cons, List.flatMap_cons]
    exact (h c).append ih

theorem read_chr {c : Char} (h : c ≠ '<') (h' : c ≠ '&') : ReadsAs [c] [c] := by
  show ((step .text c).1 ++ [], (step .text c).2) = _
  have hstep : step .text c = ([.chr c], .text) := by
    show (if c = '<' then _ else if c = '&' then _ else _) = _
    rw [if_neg h, if_neg h']
  rw [hstep]
  rfl

/-- **Plain text** is shown as it is. -/
theorem read_plain {cs : List Char} (h : ∀ c ∈ cs, c ≠ '<' ∧ c ≠ '&') : ReadsAs cs cs := by
  induction cs with
  | nil => rfl
  | cons c cs ih =>
    obtain ⟨hc, hcs⟩ := List.forall_mem_cons.mp h
    exact (read_chr hc.1 hc.2).append (ih hcs)

theorem shown_tags (cs : List Char) : (shown cs).filter Token.isTag = [] := by
  rw [List.filter_eq_nil_iff]
  intro t ht
  obtain ⟨c, -, rfl⟩ := List.mem_map.mp ht
  exact Bool.false_ne_true

end Markup
end Lib
