import Mathlib.Data.List.Sort
import KatagoWs.Basic

/-!
# SGF to query data

`parse` follows the main variation of the first game tree, refuses what it would have to guess
at, and translates points to GTP vertices on the board.  The typed nodes come from the parser
crate, which is the parameter `goParse`.

* `scan`            the loop over the main variation, `replayable` what it accepts and
                    `Scan.take` what it collects (`scan_ok`);
* `collect`         board size, order of the setup stones, translation to GTP;
* `policyIndex`     where a GTP move sits in the policy array;
* `parse_isOk`      a record is accepted when it is replayable and fits its board;
* `validate_agrees`   the check at submit time and the worker's `parse` agree exactly on the
                    records whose size is given or does not matter.
-/

set_option linter.unusedSectionVars false

namespace KatagoWs

/-! ## the game -/

inductive Color where
  | black
  | white
deriving DecidableEq, Repr

def Color.other : Color → Color
  | .black => .white
  | .white => .black

inductive Rules where
  | japanese
  | chinese
deriving DecidableEq, Repr

abbrev ColoredMove := Color × String

structure ParsedGame where
  boardSize : Nat
  komi : ℚ
  rules : Rules
  result : Option String
  initialStones : List ColoredMove
  moves : List ColoredMove
deriving DecidableEq, Repr

structure Point where
  x : Nat
  y : Nat
deriving DecidableEq, Repr

inductive Move where
  | pass
  | move (point : Point)
deriving DecidableEq, Repr

/-- a typed property; `other` is any that `parse` does not read, and the point sets are in the
order they are enumerated -/
inductive GoProp where
  | b (mv : Move)
  | w (mv : Move)
  | ab (points : List Point)
  | aw (points : List Point)
  | ae (points : List Point)
  | sz (width height : Nat)
  | km (value : ℚ)
  | ru (rule : String)
  | re (outcome : String)
  | invalid (identifier : String) (values : List String)
  | other

inductive SgfNode where
  | mk (properties : List GoProp) (children : List SgfNode)

/-- the properties of a node, its first child, and so on -/
def SgfNode.mainVariation : SgfNode → List (List GoProp)
  | .mk properties [] => [properties]
  | .mk properties (child :: _) => properties :: child.mainVariation

/-- a malformed one of these is fatal, a malformed anything else is ignored -/
def GAME_PROPS : List String := ["B", "W", "AB", "AW", "AE", "SZ", "KM"]

/-- GTP column letters; `I` is skipped -/
def GTP_LETTERS : List Char := "ABCDEFGHJKLMNOPQRSTUVWXYZ".toList

def eqIgnoreAsciiCase (s t : String) : Bool :=
  s.toList.map Char.toLower == t.toList.map Char.toLower

/-- the Unicode `White_Space` characters, which `trim` strips -/
def isWhiteSpace (c : Char) : Bool :=
  (9 ≤ c.toNat && c.toNat ≤ 13) || c.toNat == 0x20 || c.toNat == 0x85 || c.toNat == 0xA0 ||
    c.toNat == 0x1680 || (0x2000 ≤ c.toNat && c.toNat ≤ 0x200A) || c.toNat == 0x2028 ||
    c.toNat == 0x2029 || c.toNat == 0x202F || c.toNat == 0x205F || c.toNat == 0x3000

def trim (s : String) : String :=
  String.ofList (((s.toList.dropWhile isWhiteSpace).reverse.dropWhile isWhiteSpace).reverse)

def toGtp (point : Point) (boardSize : Nat) : AppResult String :=
  let x := point.x
  let y := point.y
  if x ≥ boardSize ∨ y ≥ boardSize then
    .error (.sgf s!"point ({x}, {y}) is off the {boardSize}x{boardSize} board")
  else
    let letter := (GTP_LETTERS[x]?).getD '?'
    let row := boardSize - y
    .ok s!"{letter}{row}"

/-- GTP location of a move; `tt` is the pre-FF4 pass on boards up to 19x19. -/
def moveToGtp (mv : Move) (boardSize : Nat) : AppResult String :=
  match mv with
  | .pass => .ok "pass"
  | .move point =>
    if point = ⟨19, 19⟩ ∧ boardSize ≤ 19 then .ok "pass" else toGtp point boardSize

def USIZE_RANGE : Nat := 18446744073709551616

/-- `usize::from_str` on ASCII text: an optional sign, then digits of a number in range -/
def parseUsize (cs : List Char) : Option Nat :=
  let digits := match cs with
    | '+' :: rest => rest
    | _ => cs
  if digits ≠ [] ∧ digits.all Char.isDigit then
    let n := digits.foldl (fun n c => 10 * n + (c.toNat - '0'.toNat)) 0
    if n < USIZE_RANGE then some n else none
  else none

/-- Where a GTP move sits in the policy array: the board row by row from the top left, then
pass. -/
def policyIndex (mv : String) (boardSize : Nat) : Option Nat :=
  if eqIgnoreAsciiCase mv "pass" then some (boardSize * boardSize)
  else
    match mv.toList with
    | [] => none
    | letter :: row => do
      let col ← GTP_LETTERS.idxOf? letter.toUpper
      let row ← parseUsize row
      if col < boardSize ∧ 1 ≤ row ∧ row ≤ boardSize then
        some ((boardSize - row) * boardSize + col)
      else none

/-! ## the loop over the main variation -/

structure Scan where
  size : Option Nat
  komi : Option ℚ
  rules : Rules
  result : Option String
  setup : List (Color × Point)
  moves : List (Color × Move)

def Scan.start : Scan := ⟨none, none, .japanese, none, [], []⟩

def Scan.place (s : Scan) (color : Color) (points : List Point) : AppResult Scan :=
  let played := s.moves.length
  if s.moves ≠ [] then .error (.sgf s!"setup stones after move {played} are not supported")
  else .ok { s with setup := s.setup ++ points.map fun point => (color, point) }

/-- one property of node `index`, with the move the node has so far -/
def scanProp (index : Nat) (s : Scan) (nodeMove : Option (Color × Move)) :
    GoProp → AppResult (Scan × Option (Color × Move))
  | .invalid identifier values =>
    let joined := "][".intercalate values
    if GAME_PROPS.contains identifier then
      .error (.sgf s!"malformed property {identifier}[{joined}] in node {index}")
    else .ok (s, nodeMove)
  | .sz width height =>
    if width ≠ height then
      .error (.sgf s!"non-square board {width}x{height} is not supported")
    else .ok ({ s with size := some width }, nodeMove)
  | .km value => .ok ({ s with komi := some value }, nodeMove)
  | .ru rule =>
    -- Japanese for anything the engine does not model
    let rules := if eqIgnoreAsciiCase (trim rule) "chinese" then .chinese else .japanese
    .ok ({ s with rules }, nodeMove)
  | .re outcome => .ok ({ s with result := some outcome }, nodeMove)
  | .ab points => (s.place .black points).map fun s => (s, nodeMove)
  | .aw points => (s.place .white points).map fun s => (s, nodeMove)
  | .ae points =>
    if points ≠ [] then .error (.sgf "removing stones (AE) is not supported")
    else .ok (s, nodeMove)
  | .b mv =>
    if nodeMove.isSome then .error (.sgf s!"node {index} has more than one move")
    else .ok (s, some (.black, mv))
  | .w mv =>
    if nodeMove.isSome then .error (.sgf s!"node {index} has more than one move")
    else .ok (s, some (.white, mv))
  | .other => .ok (s, nodeMove)

def scanProps (index : Nat) (s : Scan) (nodeMove : Option (Color × Move)) :
    List GoProp → AppResult (Scan × Option (Color × Move))
  | [] => .ok (s, nodeMove)
  | p :: ps => do
    let (s, nodeMove) ← scanProp index s nodeMove p
    scanProps index s nodeMove ps

def scanNodes (index : Nat) (s : Scan) : List (List GoProp) → AppResult Scan
  | [] => .ok s
  | node :: nodes => do
    let (s, nodeMove) ← scanProps index s none node
    scanNodes (index + 1) { s with moves := s.moves ++ nodeMove.toList } nodes

def scan (nodes : List (List GoProp)) : AppResult Scan := scanNodes 0 Scan.start nodes

def setupLe (a b : Color × Point) : Prop :=
  (a.1 = .black ∧ b.1 = .white) ∨
    (a.1 = b.1 ∧ (a.2.y < b.2.y ∨ (a.2.y = b.2.y ∧ a.2.x ≤ b.2.x)))

instance : DecidableRel setupLe := fun a b =>
  inferInstanceAs (Decidable ((a.1 = .black ∧ b.1 = .white) ∨
    (a.1 = b.1 ∧ (a.2.y < b.2.y ∨ (a.2.y = b.2.y ∧ a.2.x ≤ b.2.x)))))

def translate {α : Type} (f : α → Nat → AppResult String) (boardSize : Nat)
    (l : List (Color × α)) : AppResult (List ColoredMove) :=
  l.mapM fun p => (f p.2 boardSize).map fun vertex => (p.1, vertex)

/-- the end of `parse`, from what the loop collected -/
def collect (s : Scan) (defaultSize : Nat) (defaultKomi : ℚ) : AppResult ParsedGame := do
  let boardSize := s.size.getD defaultSize
  if boardSize = 0 ∨ boardSize > GTP_LETTERS.length then
    .error (.sgf s!"board size {boardSize} is not supported")
  else
    let initialStones ← translate toGtp boardSize (s.setup.insertionSort setupLe)
    let moves ← translate moveToGtp boardSize s.moves
    return {
      boardSize
      komi := s.komi.getD defaultKomi
      rules := s.rules
      result := s.result
      initialStones
      moves }

section
variable (goParse : String → Except String (List SgfNode))

def parse (sgf : String) (defaultSize : Nat) (defaultKomi : ℚ) : AppResult ParsedGame :=
  match goParse sgf with
  | .error err => .error (.sgf err)
  | .ok [] => .error (.sgf "no game tree")
  | .ok (root :: _) => do
    let s ← scan root.mainVariation
    collect s defaultSize defaultKomi

/-- Check that an SGF would parse, with 19 and 7.5 for the defaults. -/
def validate (sgf : String) : AppResult Unit := (parse goParse sgf 19 (15 / 2)).map fun _ => ()

end

/-! ## what the loop accepts, and what it collects -/

@[simp] def GoProp.move? : GoProp → Option (Color × Move)
  | .b mv => some (.black, mv)
  | .w mv => some (.white, mv)
  | _ => none

@[simp] def GoProp.isSetup : GoProp → Bool
  | .ab _ => true
  | .aw _ => true
  | _ => false

@[simp] def GoProp.stones : GoProp → List (Color × Point)
  | .ab points => points.map fun point => (.black, point)
  | .aw points => points.map fun point => (.white, point)
  | _ => []

@[simp] def GoProp.size? : GoProp → Option Nat
  | .sz width _ => some width
  | _ => none

/-- not malformed in a way that shapes the position, no non-square board, no stones removed -/
@[simp] def GoProp.readable : GoProp → Bool
  | .invalid identifier _ => !GAME_PROPS.contains identifier
  | .sz width height => width == height
  | .ae points => points == []
  | _ => true

def nodeMoves (node : List GoProp) : List (Color × Move) := node.filterMap GoProp.move?

/-- every property is readable, no node has two moves, and no stones are set up after a node
with a move; `played` says whether there was one before -/
def replayable : Bool → List (List GoProp) → Bool
  | _, [] => true
  | played, node :: nodes =>
    node.all GoProp.readable && (!played || !node.any GoProp.isSetup) &&
      (nodeMoves node).length ≤ 1 && replayable (played || !(nodeMoves node).isEmpty) nodes

/-- what a property adds, apart from a move -/
@[simp] def Scan.absorb (s : Scan) : GoProp → Scan
  | .sz width _ => { s with size := some width }
  | .km value => { s with komi := some value }
  | .ru rule =>
    { s with rules := if eqIgnoreAsciiCase (trim rule) "chinese" then .chinese else .japanese }
  | .re outcome => { s with result := some outcome }
  | .ab points => { s with setup := s.setup ++ points.map fun point => (.black, point) }
  | .aw points => { s with setup := s.setup ++ points.map fun point => (.white, point) }
  | _ => s

def Scan.take (s : Scan) (node : List GoProp) : Scan :=
  { node.foldl Scan.absorb s with moves := s.moves ++ nodeMoves node }

theorem Scan.absorb_moves (s : Scan) (p : GoProp) : (s.absorb p).moves = s.moves := by
  cases p <;> simp

theorem Scan.foldl_absorb_moves (s : Scan) (ps : List GoProp) :
    (ps.foldl Scan.absorb s).moves = s.moves := by
  induction ps generalizing s with
  | nil => rfl
  | cons p ps ih => rw [List.foldl_cons, ih, Scan.absorb_moves]

theorem Scan.absorb_setup (s : Scan) (p : GoProp) :
    (s.absorb p).setup = s.setup ++ p.stones := by
  cases p with
  | ab points => rfl
  | aw points => rfl
  | _ => simp

theorem Scan.absorb_size (s : Scan) (p : GoProp) : (s.absorb p).size = p.size?.or s.size := by
  cases p <;> simp

theorem scanProp_ok {index : Nat} {s : Scan} {m : Option (Color × Move)} {p : GoProp}
    {r : Scan × Option (Color × Move)} :
    scanProp index s m p = .ok r ↔
      (p.readable = true ∧ (p.isSetup = true → s.moves = []) ∧
        (m.toList ++ p.move?.toList).length ≤ 1) ∧
      r = (s.absorb p, (m.toList ++ p.move?.toList).head?) := by
  have hif : ∀ {c : Prop} [Decidable c] {e : AppError} {a : Scan × Option (Color × Move)},
      (if c then .error e else .ok a : AppResult _) = .ok r ↔ ¬ c ∧ r = a := by
    intro c _ e a
    split
    case isTrue h => exact ⟨fun hr => (by cases hr), fun hr => absurd h hr.1⟩
    case isFalse h => exact ⟨fun hr => ⟨h, (by cases hr; rfl)⟩, fun hr => (by rw [hr.2])⟩
  have hok : ∀ {a : Scan × Option (Color × Move)}, (Except.ok a : AppResult _) = .ok r ↔ r = a := by
    intro a
    rw [Except.ok.injEq]
    exact eq_comm
  have hplace : ∀ color points, ((s.place color points).map fun s => (s, m)) = .ok r ↔
      s.moves = [] ∧
        r = ({ s with setup := s.setup ++ points.map fun point => (color, point) }, m) := by
    intro color points
    unfold Scan.place
    dsimp only
    split
    case isTrue h =>
      have he : ∀ e : AppError, (Except.map (fun s : Scan => (s, m)) (.error e)) ≠ .ok r :=
        fun e hr => by cases hr
      exact ⟨fun hr => absurd hr (he _), fun hr => absurd hr.1 h⟩
    case isFalse h =>
      have hm : s.moves = [] := not_not.mp h
      exact ⟨fun hr => ⟨hm, hok.mp hr⟩, fun hr => hok.mpr hr.2⟩
  cases p with
  | invalid identifier values =>
    simp only [scanProp, hif]
    cases m <;> simp
  | sz width height =>
    simp only [scanProp, hif]
    cases m <;> simp
  | ae points =>
    simp only [scanProp, hif]
    cases m <;> simp
  | b mv =>
    simp only [scanProp, hif]
    cases m <;> simp
  | w mv =>
    simp only [scanProp, hif]
    cases m <;> simp
  | ab points =>
    simp only [scanProp, hplace]
    cases m <;> simp
  | aw points =>
    simp only [scanProp, hplace]
    cases m <;> simp
  | km value =>
    simp only [scanProp, hok]
    cases m <;> simp
  | ru rule =>
    simp only [scanProp, hok]
    cases m <;> simp
  | re outcome =>
    simp only [scanProp, hok]
    cases m <;> simp
  | other =>
    simp only [scanProp, hok]
    cases m <;> simp

theorem bind_ok {ε α β : Type} {x : Except ε α} {f : α → Except ε β} {b : β} :
    (x >>= f) = .ok b ↔ ∃ a, x = .ok a ∧ f a = .ok b := by
  cases x with
  | ok a => exact ⟨fun h => ⟨a, rfl, h⟩, fun ⟨_, ha, h⟩ => by cases ha; exact h⟩
  | error e => exact ⟨fun h => (by cases h), fun ⟨_, ha, _⟩ => (by cases ha)⟩

theorem nodeMoves_cons (p : GoProp) (ps : List GoProp) :
    nodeMoves (p :: ps) = p.move?.toList ++ nodeMoves ps := by
  cases hp : p.move? with
  | none => rw [nodeMoves, List.filterMap_cons_none hp]; rfl
  | some mv => rw [nodeMoves, List.filterMap_cons_some hp]; rfl

theorem toList_head? {α : Type} {l : List α} (h : l.length ≤ 1) : l.head?.toList = l := by
  match l, h with
  | [], _ => rfl
  | [a], _ => rfl
  | a :: b :: l, h =>
    have hl : (a :: b :: l).length = l.length + 2 := rfl
    omega

/-- **One node**: all its properties are readable, it has at most one move, and stones only
before the first move of the game. -/
theorem scanProps_ok {index : Nat} {s : Scan} {m : Option (Color × Move)} {ps : List GoProp}
    {r : Scan × Option (Color × Move)} :
    scanProps index s m ps = .ok r ↔
      (ps.all GoProp.readable = true ∧ (ps.any GoProp.isSetup = true → s.moves = []) ∧
        (m.toList ++ nodeMoves ps).length ≤ 1) ∧
      r = (ps.foldl Scan.absorb s, (m.toList ++ nodeMoves ps).head?) := by
  induction ps generalizing s m with
  | nil =>
    rw [scanProps, Except.ok.injEq]
    cases m <;> simp [nodeMoves, eq_comm]
  | cons p ps ih =>
    have hmoves : (s.absorb p).moves = s.moves := Scan.absorb_moves s p
    rw [scanProps, bind_ok, nodeMoves_cons, ← List.append_assoc, List.all_cons, List.any_cons,
      Bool.and_eq_true, Bool.or_eq_true, List.foldl_cons]
    constructor
    · rintro ⟨⟨s', m'⟩, h1, h2⟩
      obtain ⟨⟨hr, hs, hm⟩, he⟩ := scanProp_ok.mp h1
      obtain ⟨rfl, rfl⟩ := Prod.mk.inj he
      obtain ⟨⟨hrs, hss, hms⟩, rfl⟩ := ih.mp h2
      rw [hmoves] at hss
      rw [toList_head? hm] at hms ⊢
      exact ⟨⟨⟨hr, hrs⟩, fun h => h.elim hs hss, hms⟩, rfl⟩
    · rintro ⟨⟨⟨hr, hrs⟩, hss, hms⟩, rfl⟩
      have hm : (m.toList ++ p.move?.toList).length ≤ 1 := by
        rw [List.length_append] at hms
        omega
      refine ⟨_, scanProp_ok.mpr ⟨⟨hr, fun h => hss (Or.inl h), hm⟩, rfl⟩, ih.mpr ?_⟩
      rw [toList_head? hm, hmoves]
      exact ⟨⟨hrs, fun h => hss (Or.inr h), hms⟩, rfl⟩

theorem Scan.take_eq {s : Scan} {node : List GoProp} (h : (nodeMoves node).length ≤ 1) :
    { node.foldl Scan.absorb s with
      moves := (node.foldl Scan.absorb s).moves ++ (nodeMoves node).head?.toList }
      = s.take node := by
  rw [toList_head? h, Scan.foldl_absorb_moves]
  rfl

/-- **The loop** accepts the replayable main variations and collects node by node. -/
theorem scanNodes_ok {index : Nat} {s r : Scan} {nodes : List (List GoProp)} :
    scanNodes index s nodes = .ok r ↔
      replayable (!s.moves.isEmpty) nodes = true ∧ r = nodes.foldl Scan.take s := by
  induction nodes generalizing index s with
  | nil =>
    rw [scanNodes, Except.ok.injEq]
    exact ⟨fun h => ⟨rfl, h.symm⟩, fun h => h.2.symm⟩
  | cons node nodes ih =>
    have hcond : replayable (!s.moves.isEmpty) (node :: nodes) = true ↔
        (node.all GoProp.readable = true ∧ (node.any GoProp.isSetup = true → s.moves = []) ∧
          (nodeMoves node).length ≤ 1) ∧
        replayable (!(s.take node).moves.isEmpty) nodes = true := by
      have hm : (!(s.take node).moves.isEmpty) =
          ((!s.moves.isEmpty) || !(nodeMoves node).isEmpty) := by
        show (!(s.moves ++ nodeMoves node).isEmpty) = _
        cases s.moves <;> rfl
      have hs : ((!(!s.moves.isEmpty)) || !node.any GoProp.isSetup) = true ↔
          (node.any GoProp.isSetup = true → s.moves = []) := by
        cases node.any GoProp.isSetup <;> simp
      rw [hm, replayable, Bool.and_eq_true, Bool.and_eq_true, Bool.and_eq_true, hs,
        decide_eq_true_iff, and_assoc (a := node.all GoProp.readable = true)]
    rw [hcond, scanNodes, bind_ok, List.foldl_cons]
    constructor
    · rintro ⟨⟨s', m⟩, h1, h2⟩
      obtain ⟨hn, he⟩ := scanProps_ok.mp h1
      obtain ⟨rfl, rfl⟩ := Prod.mk.inj he
      have h2' : scanNodes (index + 1) (s.take node) nodes = .ok r :=
        (Scan.take_eq hn.2.2) ▸ h2
      exact ⟨⟨hn, (ih.mp h2').1⟩, (ih.mp h2').2⟩
    · rintro ⟨⟨hn, hrest⟩, rfl⟩
      refine ⟨_, scanProps_ok.mpr ⟨hn, rfl⟩, ?_⟩
      have hr : scanNodes (index + 1) (s.take node) nodes
          = .ok (nodes.foldl Scan.take (s.take node)) := ih.mpr ⟨hrest, rfl⟩
      exact (Scan.take_eq (s := s) hn.2.2).symm ▸ hr

theorem scan_ok {nodes : List (List GoProp)} {r : Scan} :
    scan nodes = .ok r ↔ replayable false nodes = true ∧ r = nodes.foldl Scan.take Scan.start :=
  scanNodes_ok

/-! ## what a record names -/

def setupStones (nodes : List (List GoProp)) : List (Color × Point) :=
  nodes.flatten.flatMap GoProp.stones

def playedMoves (nodes : List (List GoProp)) : List (Color × Move) := nodes.flatMap nodeMoves

def sizes (nodes : List (List GoProp)) : List Nat := nodes.flatten.filterMap GoProp.size?

theorem foldl_absorb_setup (s : Scan) (ps : List GoProp) :
    (ps.foldl Scan.absorb s).setup = s.setup ++ ps.flatMap GoProp.stones := by
  induction ps generalizing s with
  | nil => exact (List.append_nil _).symm
  | cons p ps ih =>
    rw [List.foldl_cons, ih, Scan.absorb_setup, List.append_assoc, List.flatMap_cons]

theorem foldl_absorb_size (s : Scan) (ps : List GoProp) :
    (ps.foldl Scan.absorb s).size = ((ps.filterMap GoProp.size?).getLast?).or s.size := by
  induction ps generalizing s with
  | nil => rfl
  | cons p ps ih =>
    rw [List.foldl_cons, ih, Scan.absorb_size]
    cases hp : p.size? with
    | none => rw [List.filterMap_cons_none hp]; rfl
    | some n =>
      rw [List.filterMap_cons_some hp, List.getLast?_cons]
      cases (ps.filterMap GoProp.size?).getLast? <;> rfl

/-- **What the loop collects**: the stones and moves in order, and the last size given. -/
theorem foldl_take (s : Scan) (nodes : List (List GoProp)) :
    (nodes.foldl Scan.take s).setup = s.setup ++ setupStones nodes ∧
    (nodes.foldl Scan.take s).moves = s.moves ++ playedMoves nodes ∧
    (nodes.foldl Scan.take s).size = ((sizes nodes).getLast?).or s.size := by
  induction nodes generalizing s with
  | nil => exact ⟨(List.append_nil _).symm, (List.append_nil _).symm, rfl⟩
  | cons node nodes ih =>
    obtain ⟨h1, h2, h3⟩ := ih (s.take node)
    have ht1 : (s.take node).setup = s.setup ++ node.flatMap GoProp.stones :=
      foldl_absorb_setup s node
    have ht3 : (s.take node).size = ((node.filterMap GoProp.size?).getLast?).or s.size :=
      foldl_absorb_size s node
    rw [List.foldl_cons, h1, h2, h3, ht1, ht3]
    refine ⟨?_, ?_, ?_⟩
    · have hc : setupStones (node :: nodes) = node.flatMap GoProp.stones ++ setupStones nodes := by
        rw [setupStones, List.flatten_cons, List.flatMap_append]
        rfl
      rw [hc, List.append_assoc]
    · show (s.moves ++ nodeMoves node) ++ playedMoves nodes = _
      rw [playedMoves, playedMoves, List.flatMap_cons, List.append_assoc]
    · rw [sizes, sizes, List.flatten_cons, List.filterMap_append, List.getLast?_append,
        Option.or_assoc]

/-! ## boards -/

def Point.onBoard (boardSize : Nat) (point : Point) : Prop :=
  point.x < boardSize ∧ point.y < boardSize

def Move.onBoard (boardSize : Nat) : Move → Prop
  | .pass => True
  | .move point => (point = ⟨19, 19⟩ ∧ boardSize ≤ 19) ∨ point.onBoard boardSize

/-- every stone and every move of the record has a place on the board -/
def Fits (boardSize : Nat) (nodes : List (List GoProp)) : Prop :=
  (∀ p ∈ setupStones nodes, p.2.onBoard boardSize) ∧
    ∀ m ∈ playedMoves nodes, m.2.onBoard boardSize

theorem toGtp_isOk {point : Point} {boardSize : Nat} :
    (toGtp point boardSize).isOk = true ↔ point.onBoard boardSize := by
  unfold toGtp Point.onBoard
  dsimp only
  split
  case isTrue h => exact ⟨fun hr => (by cases hr), fun hr => (by omega)⟩
  case isFalse h => exact ⟨fun _ => (by omega), fun _ => rfl⟩

theorem moveToGtp_isOk {mv : Move} {boardSize : Nat} :
    (moveToGtp mv boardSize).isOk = true ↔ mv.onBoard boardSize := by
  cases mv with
  | pass => exact ⟨fun _ => trivial, fun _ => rfl⟩
  | move point =>
    unfold moveToGtp Move.onBoard
    dsimp only
    split
    case isTrue h => exact ⟨fun _ => Or.inl h, fun _ => rfl⟩
    case isFalse h => exact toGtp_isOk.trans ⟨Or.inr, fun hr => hr.resolve_left h⟩

theorem mapM_isOk {α β : Type} (f : α → AppResult β) (l : List α) :
    (l.mapM f).isOk = true ↔ ∀ a ∈ l, (f a).isOk = true := by
  induction l with
  | nil => exact ⟨fun _ a ha => (by cases ha), fun _ => rfl⟩
  | cons a l ih =>
    rw [List.mapM_cons, List.forall_mem_cons, ← ih]
    cases f a with
    | error e => exact ⟨fun h => (by cases h), fun h => (by cases h.1)⟩
    | ok b =>
      cases l.mapM f with
      | error e => exact ⟨fun h => (by cases h), fun h => (by cases h.2)⟩
      | ok bs => exact ⟨fun _ => ⟨rfl, rfl⟩, fun _ => rfl⟩

theorem translate_isOk {α : Type} (f : α → Nat → AppResult String) (boardSize : Nat)
    (l : List (Color × α)) :
    (translate f boardSize l).isOk = true ↔ ∀ p ∈ l, (f p.2 boardSize).isOk = true := by
  rw [translate, mapM_isOk]
  refine forall₂_congr fun p _ => ?_
  cases f p.2 boardSize <;> exact Iff.rfl

/-- a larger board has a place for whatever a smaller one has; `tt` becomes a point of it -/
theorem Fits.mono {small large : Nat} {nodes : List (List GoProp)} (hle : small ≤ large)
    (h : Fits small nodes) : Fits large nodes := by
  have hpoint : ∀ point : Point, point.onBoard small → point.onBoard large :=
    fun point hp => ⟨lt_of_lt_of_le hp.1 hle, lt_of_lt_of_le hp.2 hle⟩
  refine ⟨fun p hp => hpoint p.2 (h.1 p hp), fun m hm => ?_⟩
  have hm' := h.2 m hm
  cases hmv : m.2 with
  | pass => trivial
  | move point =>
    rw [hmv] at hm'
    rcases hm' with ⟨rfl, _⟩ | hp
    · by_cases hl : large ≤ 19
      · exact Or.inl ⟨rfl, hl⟩
      · have h19 : 19 < large := by omega
        exact Or.inr ⟨h19, h19⟩
    · exact Or.inr (hpoint point hp)

theorem collect_isOk (s : Scan) (defaultSize : Nat) (komi : ℚ) :
    (collect s defaultSize komi).isOk = true ↔
      (0 < s.size.getD defaultSize ∧ s.size.getD defaultSize ≤ GTP_LETTERS.length) ∧
      (∀ p ∈ s.setup, p.2.onBoard (s.size.getD defaultSize)) ∧
      ∀ m ∈ s.moves, m.2.onBoard (s.size.getD defaultSize) := by
  generalize hb : s.size.getD defaultSize = b
  unfold collect
  dsimp only
  rw [hb]
  split
  case isTrue h => exact ⟨fun hr => (by cases hr), fun hr => (by omega)⟩
  case isFalse h =>
    have hsize : 0 < b ∧ b ≤ GTP_LETTERS.length := by omega
    have hsetup := translate_isOk toGtp b (s.setup.insertionSort setupLe)
    have hmoves := translate_isOk moveToGtp b s.moves
    simp only [List.mem_insertionSort, toGtp_isOk] at hsetup
    simp only [moveToGtp_isOk] at hmoves
    rw [← hsetup, ← hmoves]
    cases translate toGtp b (s.setup.insertionSort setupLe) with
    | error e => exact ⟨fun hr => (by cases hr), fun hr => (by cases hr.2.1)⟩
    | ok stones =>
      cases translate moveToGtp b s.moves with
      | error e => exact ⟨fun hr => (by cases hr), fun hr => (by cases hr.2.2)⟩
      | ok moves => exact ⟨fun _ => ⟨hsize, rfl, rfl⟩, fun _ => rfl⟩

section
variable (goParse : String → Except String (List SgfNode))

def mainLine (sgf : String) : Option (List (List GoProp)) :=
  match goParse sgf with
  | .ok (root :: _) => some root.mainVariation
  | _ => none

/-- **What `parse` accepts**: a main variation the loop accepts, on a supported board, with every
stone and move on it. -/
theorem parse_isOk (sgf : String) (defaultSize : Nat) (komi : ℚ) :
    (parse goParse sgf defaultSize komi).isOk = true ↔ ∃ nodes, mainLine goParse sgf = some nodes ∧
      replayable false nodes = true ∧
      (0 < (sizes nodes).getLast?.getD defaultSize ∧
        (sizes nodes).getLast?.getD defaultSize ≤ GTP_LETTERS.length) ∧
      Fits ((sizes nodes).getLast?.getD defaultSize) nodes := by
  unfold parse mainLine
  cases goParse sgf with
  | error err => exact ⟨fun hr => (by cases hr), fun ⟨_, hn, _⟩ => (by cases hn)⟩
  | ok trees =>
    cases trees with
    | nil => exact ⟨fun hr => (by cases hr), fun ⟨_, hn, _⟩ => (by cases hn)⟩
    | cons root trees =>
      dsimp only
      cases hs : scan root.mainVariation with
      | error e =>
        refine ⟨fun hr => (by cases hr), fun ⟨nodes, hn, hrep, _⟩ => ?_⟩
        cases hn
        rw [scan_ok.mpr ⟨hrep, rfl⟩] at hs
        cases hs
      | ok s =>
        obtain ⟨hrep, rfl⟩ := scan_ok.mp hs
        obtain ⟨h1, h2, h3⟩ := foldl_take Scan.start root.mainVariation
        have hsize : (root.mainVariation.foldl Scan.take Scan.start).size
            = (sizes root.mainVariation).getLast? := by rw [h3]; exact Option.or_none
        have hc := collect_isOk (root.mainVariation.foldl Scan.take Scan.start) defaultSize komi
        rw [hsize, h1, h2] at hc
        exact ⟨fun hr => ⟨_, rfl, hrep, (hc.mp hr).1, (hc.mp hr).2⟩,
          fun ⟨nodes, hn, _, hb, hf⟩ => (by cases hn; exact hc.mpr ⟨hb, hf⟩)⟩

/-- the default size does not decide whether the record is accepted: the loop refuses it, it
gives its own size, everything is on the smaller of the two boards, or something is off the
larger -/
def SizeSettled (defaultSize : Nat) (nodes : List (List GoProp)) : Prop :=
  replayable false nodes = false ∨ sizes nodes ≠ [] ∨
    Fits (min 19 defaultSize) nodes ∨ ¬ Fits (max 19 defaultSize) nodes

theorem validate_isOk (sgf : String) :
    (validate goParse sgf).isOk = (parse goParse sgf 19 (15 / 2)).isOk := by
  unfold validate
  cases parse goParse sgf 19 (15 / 2) <;> rfl

/-- **The check at submit time and the worker's `parse`** accept the same record exactly when the
default size does not decide it. -/
theorem validate_agrees (sgf : String) {defaultSize : Nat} (h1 : 1 ≤ defaultSize)
    (h2 : defaultSize ≤ 25) (komi : ℚ) :
    ((validate goParse sgf).isOk = true ↔ (parse goParse sgf defaultSize komi).isOk = true) ↔
      ∀ nodes, mainLine goParse sgf = some nodes → SizeSettled defaultSize nodes := by
  rw [validate_isOk, parse_isOk, parse_isOk]
  cases hm : mainLine goParse sgf with
  | none =>
    exact ⟨fun _ _ hn => (by cases hn),
      fun _ => ⟨fun ⟨_, hn, _⟩ => (by cases hn), fun ⟨_, hn, _⟩ => (by cases hn)⟩⟩
  | some nodes =>
    simp only [Option.some.injEq, exists_eq_left', forall_eq', SizeSettled]
    cases hrep : replayable false nodes with
    | false => simp
    | true =>
      have hlen : GTP_LETTERS.length = 25 := rfl
      cases hl : (sizes nodes).getLast? with
      | some size =>
        have hne : sizes nodes ≠ [] := by
          intro he
          rw [he] at hl
          cases hl
        simp [hne]
      | none =>
        have hnil : sizes nodes = [] := List.getLast?_eq_none_iff.mp hl
        have hlo : Fits (min 19 defaultSize) nodes → Fits 19 nodes ∧ Fits defaultSize nodes :=
          fun hf => ⟨hf.mono (by omega), hf.mono (by omega)⟩
        have hhi : Fits 19 nodes ∨ Fits defaultSize nodes → Fits (max 19 defaultSize) nodes :=
          fun hf => hf.elim (fun hf => hf.mono (by omega)) (fun hf => hf.mono (by omega))
        have hboth : Fits 19 nodes ∧ Fits defaultSize nodes → Fits (min 19 defaultSize) nodes := by
          rcases le_total 19 defaultSize with hle | hle
          · rw [min_eq_left hle]
            exact fun hf => hf.1
          · rw [min_eq_right hle]
            exact fun hf => hf.2
        have heither : Fits (max 19 defaultSize) nodes →
            Fits 19 nodes ∨ Fits defaultSize nodes := by
          rcases le_total 19 defaultSize with hle | hle
          · rw [max_eq_right hle]
            exact Or.inr
          · rw [max_eq_left hle]
            exact Or.inl
        have h19 : 0 < 19 ∧ 19 ≤ GTP_LETTERS.length := by omega
        have hd : 0 < defaultSize ∧ defaultSize ≤ GTP_LETTERS.length := by omega
        simp only [Option.getD_none, true_and, hnil, ne_eq, not_true_eq_false, false_or, h19, hd,
          and_self, Bool.true_eq_false]
        constructor
        · intro hiff
          by_cases hf : Fits (max 19 defaultSize) nodes
          · rcases heither hf with hf | hf
            · exact Or.inl (hboth ⟨hf, hiff.mp hf⟩)
            · exact Or.inl (hboth ⟨hiff.mpr hf, hf⟩)
          · exact Or.inr hf
        · rintro (hf | hf)
          · exact ⟨fun _ => (hlo hf).2, fun _ => (hlo hf).1⟩
          · exact ⟨fun h => absurd (hhi (Or.inl h)) hf, fun h => absurd (hhi (Or.inr h)) hf⟩

end

def oneMove : String → Except String (List SgfNode)
  | "(;B[pd])" => .ok [.mk [.b (.move ⟨15, 3⟩)] []]
  | "(;SZ[19]B[pd])" => .ok [.mk [.sz 19 19, .b (.move ⟨15, 3⟩)] []]
  | _ => .error "not an SGF"

theorem validate_agrees_size :
    (validate oneMove "(;SZ[19]B[pd])").isOk = true ↔
      (parse oneMove "(;SZ[19]B[pd])" 9 6).isOk = true := by
  refine (validate_agrees oneMove "(;SZ[19]B[pd])" (by decide) (by decide) 6).mpr ?_
  intro nodes hn
  cases hn
  exact Or.inr (Or.inl (by decide))

/-- a record without `SZ`, whose point is on a 19x19 board and off a 9x9 one -/
theorem validate_disagrees : ¬ ∀ (sgf : String) (defaultSize : Nat) (komi : ℚ),
    1 ≤ defaultSize → defaultSize ≤ 25 → ((validate oneMove sgf).isOk = true ↔
      (parse oneMove sgf defaultSize komi).isOk = true) := by
  intro h
  have hp := (h "(;B[pd])" 9 6 (by decide) (by decide)).mp (by decide)
  exact absurd hp (by decide)

end KatagoWs
