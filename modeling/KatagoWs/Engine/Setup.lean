import KatagoWs.Lib.Fallible
import KatagoWs.Lib.Overlay
import KatagoWs.Engine.Vertex

/-!
# The starting position

A record sets its position up with the `AB` and `AW` properties of the nodes before the first
move: `position` is what they leave, a later stone replacing an earlier one on its point.

`parse` collects the stones of these nodes and of the first move's own node, and sorts them by
colour, so a point that is set up twice is named twice, White's stone last.

* `Collected.stones_eq`   `initialStones` is the sorted list of what was collected;
* `setupStones_before`    where the first move's node sets nothing up, that is the stones of the
                          nodes before it;
* `start_kept`            the query starts from the record's position exactly when the record is
                          refused, or sets no point up twice and nothing up in the first move's
                          node;
* `setup_orderless`       the order in which the sets are enumerated does not matter.
-/

namespace KatagoWs
open Lib

/-! ## the position a record starts from -/

def beforeMoves (nodes : List (List GoProp)) : List (List GoProp) :=
  nodes.takeWhile fun node => (nodeMoves node).isEmpty

def fromFirstMove (nodes : List (List GoProp)) : List (List GoProp) :=
  nodes.dropWhile fun node => (nodeMoves node).isEmpty

def position (nodes : List (List GoProp)) : Point → Option Color :=
  overlay ((setupStones (beforeMoves nodes)).map Prod.swap)

/-- setup only before the first move, and never one point in two colours in one node -/
structure SetupForm (nodes : List (List GoProp)) : Prop where
  early : ∀ node ∈ fromFirstMove nodes, node.any GoProp.isSetup = false
  oneColour : ∀ node ∈ nodes, ∀ point, ¬ ((Color.black, point) ∈ node.flatMap GoProp.stones ∧
    (Color.white, point) ∈ node.flatMap GoProp.stones)

/-- the query starts from the record's position -/
structure StartKept (nodes : List (List GoProp)) (game : ParsedGame) : Prop where
  form : SetupForm nodes
  once : (game.initialStones.map Prod.snd).Nodup
  stones : ∀ color vertex, (color, vertex) ∈ game.initialStones ↔
    ∃ point, toGtp point game.boardSize = .ok vertex ∧ position nodes point = some color

/-! ## the stones that were collected -/

theorem Collected.stones_eq {s : Scan} {game : ParsedGame} (h : Collected s game) :
    (∀ p ∈ s.setup, p.2.onBoard game.boardSize) ∧
    game.initialStones =
      (s.setup.insertionSort setupLe).map fun p => (p.1, p.2.vertex game.boardSize) := by
  have key : ∀ {l : List (Color × Point)} {r : List ColoredMove},
      List.Forall₂ (fun p q => q.1 = p.1 ∧ toGtp p.2 game.boardSize = .ok q.2) l r →
      (∀ p ∈ l, p.2.onBoard game.boardSize) ∧
        r = l.map fun p => (p.1, p.2.vertex game.boardSize) := by
    intro l r hf
    induction hf with
    | nil => exact ⟨fun p hp => (by cases hp), rfl⟩
    | @cons p q l r hpq _ ih =>
      obtain ⟨hon, hv⟩ := toGtp_ok hpq.2
      refine ⟨List.forall_mem_cons.mpr ⟨hon, ih.1⟩, ?_⟩
      rw [List.map_cons, ← ih.2, ← hpq.1, ← hv]
  obtain ⟨hon, he⟩ := key h.stones
  exact ⟨fun p hp => hon p ((List.mem_insertionSort setupLe).mpr hp), he⟩

/-- a point is named once for every time it was set up -/
theorem Collected.once_iff {s : Scan} {game : ParsedGame} (h : Collected s game) :
    (game.initialStones.map Prod.snd).Nodup ↔ (s.setup.map Prod.snd).Nodup := by
  obtain ⟨hon, he⟩ := h.stones_eq
  have hp : ((s.setup.insertionSort setupLe).map Prod.snd).Perm (s.setup.map Prod.snd) :=
    (s.setup.perm_insertionSort setupLe).map _
  have hv : game.initialStones.map Prod.snd
      = ((s.setup.insertionSort setupLe).map Prod.snd).map (Point.vertex game.boardSize) := by
    rw [he, List.map_map, List.map_map]
    rfl
  rw [hv, (hp.map _).nodup_iff]
  refine ⟨List.Nodup.of_map _, fun hn => hn.map_on fun a ha b hb hab => ?_⟩
  obtain ⟨p, hp, rfl⟩ := List.mem_map.mp ha
  obtain ⟨q, hq, rfl⟩ := List.mem_map.mp hb
  have hq' : toGtp q.2 game.boardSize = .ok (p.2.vertex game.boardSize) := by
    rw [hab]
    exact toGtp_vertex (hon q hq)
  exact toGtp_inj h.size.2 (toGtp_vertex (hon p hp)) hq'

theorem Collected.mem_stones {s : Scan} {game : ParsedGame} (h : Collected s game)
    (color : Color) (vertex : String) : (color, vertex) ∈ game.initialStones ↔
      ∃ point, toGtp point game.boardSize = .ok vertex ∧ (color, point) ∈ s.setup := by
  obtain ⟨hon, he⟩ := h.stones_eq
  rw [he, List.mem_map]
  constructor
  · rintro ⟨⟨c, point⟩, hp, hq⟩
    obtain ⟨rfl, rfl⟩ := Prod.mk.inj hq
    have hs := (List.mem_insertionSort setupLe).mp hp
    exact ⟨point, toGtp_vertex (hon _ hs), hs⟩
  · rintro ⟨point, hv, hs⟩
    refine ⟨(color, point), (List.mem_insertionSort setupLe).mpr hs, ?_⟩
    rw [(toGtp_ok hv).2]

/-! ## before the first move -/

theorem stones_nil {node : List GoProp} (h : node.any GoProp.isSetup = false) :
    node.flatMap GoProp.stones = [] := by
  rw [List.flatMap_eq_nil_iff]
  intro p hp
  have hn := List.any_eq_false.mp h p hp
  cases p with
  | ab points => exact absurd rfl hn
  | aw points => exact absurd rfl hn
  | _ => rfl

theorem setupStones_nil {nodes : List (List GoProp)}
    (h : ∀ node ∈ nodes, node.any GoProp.isSetup = false) : setupStones nodes = [] := by
  induction nodes with
  | nil => rfl
  | cons node nodes ih =>
    obtain ⟨h1, h2⟩ := List.forall_mem_cons.mp h
    rw [setupStones, List.flatten_cons, List.flatMap_append, stones_nil h1]
    exact ih h2

theorem replayable_played {nodes : List (List GoProp)} (h : replayable true nodes = true) :
    ∀ node ∈ nodes, node.any GoProp.isSetup = false := by
  induction nodes with
  | nil => exact fun node hn => (by cases hn)
  | cons node nodes ih =>
    simp only [replayable, Bool.and_eq_true, Bool.not_true, Bool.false_or,
      Bool.true_or, Bool.not_eq_true'] at h
    exact List.forall_mem_cons.mpr ⟨h.1.1.2, ih h.2⟩

/-- the node of the first move, if there is one, sets nothing up -/
def SetupApart (nodes : List (List GoProp)) : Prop :=
  ∀ node, (fromFirstMove nodes).head? = some node → node.any GoProp.isSetup = false

theorem replayable_fromFirstMove {nodes rest : List (List GoProp)} {node : List GoProp}
    (h : replayable false nodes = true) (hf : fromFirstMove nodes = node :: rest) :
    replayable true rest = true := by
  induction nodes with
  | nil => cases hf
  | cons first nodes ih =>
    rw [replayable, Bool.and_eq_true, Bool.false_or] at h
    cases hm : (nodeMoves first).isEmpty with
    | true =>
      rw [hm] at h
      have he : fromFirstMove (first :: nodes) = fromFirstMove nodes :=
        List.dropWhile_cons_of_pos hm
      exact ih h.2 (he.symm.trans hf)
    | false =>
      rw [hm] at h
      have he : fromFirstMove (first :: nodes) = first :: nodes :=
        List.dropWhile_cons_of_neg (by rw [hm]; exact Bool.false_ne_true)
      obtain ⟨_, rfl⟩ := List.cons.inj (he.symm.trans hf)
      exact h.2

/-- in a replayable record only the first move's own node may set up what comes too late -/
theorem early_iff {nodes : List (List GoProp)} (h : replayable false nodes = true) :
    (∀ node ∈ fromFirstMove nodes, node.any GoProp.isSetup = false) ↔ SetupApart nodes := by
  unfold SetupApart
  cases hf : fromFirstMove nodes with
  | nil => exact ⟨fun _ node hn => (by cases hn), fun _ node hn => (by cases hn)⟩
  | cons node rest =>
    have hrest := replayable_played (replayable_fromFirstMove h hf)
    constructor
    · intro hall first hfirst
      cases hfirst
      exact hall node List.mem_cons_self
    · exact fun hfirst => List.forall_mem_cons.mpr ⟨hfirst node rfl, hrest⟩

theorem setupStones_before {nodes : List (List GoProp)}
    (h : ∀ node ∈ fromFirstMove nodes, node.any GoProp.isSetup = false) :
    setupStones nodes = setupStones (beforeMoves nodes) := by
  have hsplit : beforeMoves nodes ++ fromFirstMove nodes = nodes := List.takeWhile_append_dropWhile
  calc setupStones nodes = setupStones (beforeMoves nodes ++ fromFirstMove nodes) := by rw [hsplit]
    _ = setupStones (beforeMoves nodes) ++ setupStones (fromFirstMove nodes) := by
      rw [setupStones, List.flatten_append, List.flatMap_append]
      rfl
    _ = setupStones (beforeMoves nodes) := by rw [setupStones_nil h, List.append_nil]

theorem position_iff {nodes : List (List GoProp)}
    (h : ((setupStones (beforeMoves nodes)).map Prod.snd).Nodup) (point : Point) (color : Color) :
    position nodes point = some color ↔ (color, point) ∈ setupStones (beforeMoves nodes) := by
  have hkeys : ((setupStones (beforeMoves nodes)).map Prod.swap).map Prod.fst
      = (setupStones (beforeMoves nodes)).map Prod.snd := by
    rw [List.map_map]
    rfl
  unfold position
  rw [overlay_nodup (hkeys ▸ h), List.mem_map]
  constructor
  · rintro ⟨⟨c, p⟩, hm, he⟩
    obtain ⟨rfl, rfl⟩ := Prod.mk.inj he
    exact hm
  · exact fun hm => ⟨(color, point), hm, rfl⟩

theorem oneColour_of_nodup {nodes : List (List GoProp)}
    (h : ((setupStones nodes).map Prod.snd).Nodup) {node : List GoProp} (hn : node ∈ nodes)
    (point : Point) : ¬ ((Color.black, point) ∈ node.flatMap GoProp.stones ∧
      (Color.white, point) ∈ node.flatMap GoProp.stones) := by
  rintro ⟨hb, hw⟩
  have hsub : ∀ p ∈ node.flatMap GoProp.stones, p ∈ setupStones nodes := by
    intro p hp
    obtain ⟨a, ha, hpa⟩ := List.mem_flatMap.mp hp
    exact List.mem_flatMap.mpr ⟨a, List.mem_flatten.mpr ⟨node, hn, ha⟩, hpa⟩
  have he := List.inj_on_of_nodup_map h (hsub _ hb) (hsub _ hw) rfl
  cases he

/-! ## when the query starts from the record's position -/

/-- what `parse` accepts (`parse_isOk`) -/
def Accepted (defaultSize : Nat) (nodes : List (List GoProp)) : Prop :=
  replayable false nodes = true ∧
    (0 < (sizes nodes).getLast?.getD defaultSize ∧
      (sizes nodes).getLast?.getD defaultSize ≤ GTP_LETTERS.length) ∧
    Fits ((sizes nodes).getLast?.getD defaultSize) nodes

/-- no point is set up twice, and nothing is in the first move's node -/
structure SetupOnce (nodes : List (List GoProp)) : Prop where
  apart : SetupApart nodes
  once : ((setupStones nodes).map Prod.snd).Nodup

theorem start_kept_of {nodes : List (List GoProp)} {game : ParsedGame}
    (hrep : replayable false nodes = true)
    (hc : Collected (nodes.foldl Scan.take Scan.start) game) :
    StartKept nodes game ↔ SetupOnce nodes := by
  have hsetup : (nodes.foldl Scan.take Scan.start).setup = setupStones nodes :=
    (foldl_take Scan.start nodes).1
  have honce := hc.once_iff
  have hmem := hc.mem_stones
  rw [hsetup] at honce
  simp only [hsetup] at hmem
  constructor
  · exact fun h => ⟨(early_iff hrep).mp h.form.early, honce.mp h.once⟩
  · intro h
    have hearly := (early_iff hrep).mpr h.apart
    have hbefore := setupStones_before hearly
    refine ⟨⟨hearly, fun node hn => oneColour_of_nodup h.once hn⟩, honce.mpr h.once, ?_⟩
    intro color vertex
    rw [hmem]
    refine exists_congr fun point => and_congr_right fun _ => ?_
    rw [position_iff (hbefore ▸ h.once), ← hbefore]

section
variable (goParse : String → Except String (List SgfNode))

/-- **The starting position** is the record's exactly when the record is refused, or it sets no
point up twice and nothing up in the node of its first move. -/
theorem start_kept (sgf : String) (defaultSize : Nat) (komi : ℚ) {nodes : List (List GoProp)}
    (hn : mainLine goParse sgf = some nodes) :
    (∀ game, parse goParse sgf defaultSize komi = .ok game → StartKept nodes game) ↔
      (Accepted defaultSize nodes → SetupOnce nodes) := by
  have hacc : (parse goParse sgf defaultSize komi).isOk = true ↔ Accepted defaultSize nodes := by
    rw [parse_isOk, hn]
    simp only [Option.some.injEq, exists_eq_left']
    rfl
  rw [← hacc]
  cases hp : parse goParse sgf defaultSize komi with
  | error e => exact ⟨fun _ hr => (by cases hr), fun _ game hg => (by cases hg)⟩
  | ok game =>
    obtain ⟨hrep, hc⟩ := parse_ok goParse hn hp
    have hiff := start_kept_of hrep hc
    constructor
    · exact fun h _ => hiff.mp (h game rfl)
    · intro h g hg
      cases hg
      exact hiff.mpr (h rfl)

end

/-- what the parser crate answers for records that set `dd` up in one and in two nodes -/
def handicap : String → Except String (List SgfNode)
  | "(;SZ[19]AB[dd];W[pp])" =>
    .ok [.mk [.sz 19 19, .ab [⟨3, 3⟩]] [.mk [.w (.move ⟨15, 15⟩)] []]]
  | "(;SZ[19]AW[dd];AB[dd];W[pp])" =>
    .ok [.mk [.sz 19 19, .aw [⟨3, 3⟩]] [.mk [.ab [⟨3, 3⟩]] [.mk [.w (.move ⟨15, 15⟩)] []]]]
  | _ => .error "not an SGF"

theorem start_kept_handicap :
    StartKept [[.sz 19 19, .ab [⟨3, 3⟩]], [.w (.move ⟨15, 15⟩)]]
      ⟨19, 6, .japanese, none, [(.black, "D16")], [(.white, "Q4")]⟩ :=
  (start_kept handicap "(;SZ[19]AB[dd];W[pp])" 19 6 rfl).mpr
    (fun _ => ⟨fun _ he => (by cases he; rfl), by decide⟩) _ (by decide)

/-- Black replaces White on `dd`, and the query has both, White last -/
theorem start_lost : ¬ ∀ (sgf : String) (nodes : List (List GoProp)) (game : ParsedGame),
    mainLine handicap sgf = some nodes → parse handicap sgf 19 6 = .ok game →
      StartKept nodes game := by
  intro h
  have hk := h "(;SZ[19]AW[dd];AB[dd];W[pp])" _
    ⟨19, 6, .japanese, none, [(.black, "D16"), (.white, "D16")], [(.white, "Q4")]⟩ rfl (by decide)
  exact absurd hk.once (by decide)

/-! ## the order of a set -/

/-- the same property: `AB`, `AW` and `AE` hold sets, which may be enumerated in another order -/
inductive GoProp.Same : GoProp → GoProp → Prop
  | ab {l m : List Point} (h : l.Perm m) : GoProp.Same (.ab l) (.ab m)
  | aw {l m : List Point} (h : l.Perm m) : GoProp.Same (.aw l) (.aw m)
  | ae {l m : List Point} (h : l.Perm m) : GoProp.Same (.ae l) (.ae m)
  | refl (p : GoProp) : GoProp.Same p p

def SameNodes : List (List GoProp) → List (List GoProp) → Prop :=
  List.Forall₂ (List.Forall₂ GoProp.Same)

/-- the same collected, up to the order of the stones -/
inductive Scan.Same (s : Scan) : Scan → Prop
  | mk {setup : List (Color × Point)} (h : s.setup.Perm setup) : Scan.Same s { s with setup }

/-- the same after some properties of a node, and the same move -/
def SameSoFar (a b : Scan × Option (Color × Move)) : Prop := a.1.Same b.1 ∧ a.2 = b.2

theorem Scan.Same.place {s t : Scan} (h : s.Same t) (color : Color) {l m : List Point}
    (hp : l.Perm m) : Agree Scan.Same (s.place color l) (t.place color m) := by
  obtain ⟨hs⟩ := h
  unfold Scan.place
  dsimp only
  split_ifs with hm
  · exact Agree.error _
  · exact Agree.ok (Scan.Same.mk (hs.append (hp.map _)))

theorem place_same {s t : Scan} (h : s.Same t) (color : Color) {l m : List Point} (hp : l.Perm m)
    (nodeMove : Option (Color × Move)) :
    Agree SameSoFar ((s.place color l).map fun s => (s, nodeMove))
      ((t.place color m).map fun t => (t, nodeMove)) :=
  (h.place color hp).map fun _ _ hst => ⟨hst, rfl⟩

theorem scanProp_same (index : Nat) {s t : Scan} (h : s.Same t) (nodeMove : Option (Color × Move))
    {p q : GoProp} (hp : p.Same q) :
    Agree SameSoFar (scanProp index s nodeMove p) (scanProp index t nodeMove q) := by
  cases hp with
  | ab hp => exact place_same h .black hp nodeMove
  | aw hp => exact place_same h .white hp nodeMove
  | @ae l m hp =>
    have hnil : l ≠ [] ↔ m ≠ [] :=
      not_congr ⟨fun he => (he ▸ hp).nil_eq.symm, fun he => (he ▸ hp).eq_nil⟩
    unfold scanProp
    simp only [hnil]
    split_ifs
    · exact Agree.error _
    · exact Agree.ok ⟨h, rfl⟩
  | refl p =>
    cases p with
    | ab points => exact place_same h .black (List.Perm.refl points) nodeMove
    | aw points => exact place_same h .white (List.Perm.refl points) nodeMove
    | invalid _ _ | sz _ _ | ae _ | b _ | w _ =>
      obtain ⟨hs⟩ := h
      unfold scanProp
      dsimp only
      split_ifs
      · exact Agree.error _
      · exact Agree.ok ⟨Scan.Same.mk hs, rfl⟩
    | ru _ =>
      obtain ⟨hs⟩ := h
      unfold scanProp
      dsimp only
      split_ifs
      · exact Agree.ok ⟨Scan.Same.mk hs, rfl⟩
      · exact Agree.ok ⟨Scan.Same.mk hs, rfl⟩
    | km _ | re _ | other =>
      obtain ⟨hs⟩ := h
      exact Agree.ok ⟨Scan.Same.mk hs, rfl⟩

theorem scanProps_same (index : Nat) {s t : Scan} (h : s.Same t)
    (nodeMove : Option (Color × Move)) {ps qs : List GoProp} (hp : List.Forall₂ GoProp.Same ps qs) :
    Agree SameSoFar (scanProps index s nodeMove ps) (scanProps index t nodeMove qs) := by
  induction hp generalizing s t nodeMove with
  | nil => exact Agree.ok ⟨h, rfl⟩
  | cons hp _ ih =>
    refine (scanProp_same index h nodeMove hp).bind ?_
    rintro ⟨u, mv⟩ ⟨v, _⟩ ⟨huv, rfl⟩
    exact ih huv mv

theorem scanNodes_same (index : Nat) {s t : Scan} (h : s.Same t)
    {nodes nodes' : List (List GoProp)} (hn : SameNodes nodes nodes') :
    Agree Scan.Same (scanNodes index s nodes) (scanNodes index t nodes') := by
  induction hn generalizing index s t with
  | nil => exact Agree.ok h
  | cons hp _ ih =>
    refine (scanProps_same index h none hp).bind ?_
    rintro ⟨u, mv⟩ ⟨_, _⟩ ⟨⟨huv⟩, rfl⟩
    exact ih (index + 1) (Scan.Same.mk huv)

/-- the key separates any two stones, so there is one sorted order -/
theorem setupLe_antisymm {a b : Color × Point} (hab : setupLe a b) (hba : setupLe b a) : a = b := by
  obtain ⟨ac, ax, ay⟩ := a
  obtain ⟨bc, bx, bY⟩ := b
  unfold setupLe at hab hba
  cases ac <;> cases bc <;> simp at hab hba ⊢ <;> omega

instance : Std.Total setupLe where
  total a b := by
    obtain ⟨ac, ax, ay⟩ := a
    obtain ⟨bc, bx, bY⟩ := b
    unfold setupLe
    cases ac <;> cases bc <;> simp <;> omega

instance : IsTrans (Color × Point) setupLe where
  trans a b c := by
    obtain ⟨ac, ax, ay⟩ := a
    obtain ⟨bc, bx, bY⟩ := b
    obtain ⟨cc, cx, cy⟩ := c
    unfold setupLe
    cases ac <;> cases bc <;> cases cc <;> simp <;> omega

theorem sorted_perm {l m : List (Color × Point)} (h : l.Perm m) :
    l.insertionSort setupLe = m.insertionSort setupLe := by
  have hp : (l.insertionSort setupLe).Perm (m.insertionSort setupLe) :=
    (l.perm_insertionSort setupLe).trans (h.trans (m.perm_insertionSort setupLe).symm)
  exact hp.eq_of_pairwise (fun _ _ _ _ => setupLe_antisymm) (l.pairwise_insertionSort setupLe)
    (m.pairwise_insertionSort setupLe)

theorem collect_same {s t : Scan} (h : s.Same t) (defaultSize : Nat) (komi : ℚ) :
    collect s defaultSize komi = collect t defaultSize komi := by
  obtain ⟨hs⟩ := h
  unfold collect
  dsimp only
  rw [sorted_perm hs]

/-- Black's before White's, then row by row from the top, each from the left: the order of the
entries in a policy array -/
def RowOrder (boardSize : Nat) (a b : ColoredMove) : Prop :=
  (a.1 = .black ∧ b.1 = .white) ∨ (a.1 = b.1 ∧
    ∃ i j, policyIndex a.2 boardSize = some i ∧ policyIndex b.2 boardSize = some j ∧ i ≤ j)

/-- `initialStones` are the stones the nodes set up, in their order -/
structure StonesOrdered (nodes : List (List GoProp)) (game : ParsedGame) : Prop where
  sorted : ∃ stones : List (Color × Point), stones.Perm (setupStones nodes) ∧
    stones.Pairwise setupLe ∧
    List.Forall₂ (fun p q => q.1 = p.1 ∧ toGtp p.2 game.boardSize = .ok q.2) stones
      game.initialStones
  rows : game.initialStones.Pairwise (RowOrder game.boardSize)

theorem slot_le {boardSize : Nat} {p q : Point} (hp : p.onBoard boardSize)
    (h : p.y < q.y ∨ (p.y = q.y ∧ p.x ≤ q.x)) : p.slot boardSize ≤ q.slot boardSize := by
  unfold Point.slot
  rcases h with h | ⟨hy, hx⟩
  · have hrow : (p.y + 1) * boardSize ≤ q.y * boardSize := Nat.mul_le_mul_right _ h
    have hx := hp.1
    rw [Nat.succ_mul] at hrow
    omega
  · rw [hy]
    omega

theorem Collected.ordered {nodes : List (List GoProp)} {game : ParsedGame}
    (h : Collected (nodes.foldl Scan.take Scan.start) game) : StonesOrdered nodes game := by
  set s := nodes.foldl Scan.take Scan.start with hs
  have hsetup : s.setup = setupStones nodes := (foldl_take Scan.start nodes).1
  have hsorted := s.setup.pairwise_insertionSort setupLe
  refine ⟨⟨_, hsetup ▸ s.setup.perm_insertionSort setupLe, hsorted, h.stones⟩, ?_⟩
  obtain ⟨hon, he⟩ := h.stones_eq
  have hindex : ∀ p ∈ s.setup.insertionSort setupLe,
      policyIndex (p.2.vertex game.boardSize) game.boardSize = some (p.2.slot game.boardSize) :=
    fun p hp => (policyIndex_toGtp h.size.2
      (toGtp_vertex (hon p ((List.mem_insertionSort setupLe).mp hp)))).1
  rw [he, List.pairwise_map]
  refine hsorted.imp_of_mem fun {p q} hp hq hle => ?_
  rcases hle with hle | ⟨hcolor, hle⟩
  · exact Or.inl hle
  · have honp := hon p ((List.mem_insertionSort setupLe).mp hp)
    exact Or.inr ⟨hcolor, _, _, hindex p hp, hindex q hq, slot_le honp hle⟩

section
variable (goParse goParse' : String → Except String (List SgfNode))

theorem parse_main {sgf : String} {nodes : List (List GoProp)}
    (hn : mainLine goParse sgf = some nodes) (defaultSize : Nat) (komi : ℚ) :
    parse goParse sgf defaultSize komi
      = (scan nodes).bind fun s => collect s defaultSize komi := by
  unfold mainLine at hn
  split at hn
  · next root rest hg =>
    cases hn
    unfold parse
    rw [hg]
    rfl
  · cases hn

/-- **The starting position does not depend on the order of the sets**: two readings of a record
that enumerate its setup properties differently give one result, and a game's initial stones come
Black's first, then by row from the top, then by column. -/
theorem setup_orderless (sgf : String) (defaultSize : Nat) (komi : ℚ)
    {nodes nodes' : List (List GoProp)} (hn : mainLine goParse sgf = some nodes)
    (hn' : mainLine goParse' sgf = some nodes') (hsame : SameNodes nodes nodes') :
    parse goParse sgf defaultSize komi = parse goParse' sgf defaultSize komi ∧
      ∀ game, parse goParse sgf defaultSize komi = .ok game → StonesOrdered nodes game := by
  constructor
  · rw [parse_main goParse hn, parse_main goParse' hn']
    have hscan := scanNodes_same 0 (Scan.Same.mk (s := Scan.start) (List.Perm.refl _)) hsame
    exact (hscan.bind fun s t hst => Agree.of_eq (collect_same hst defaultSize komi)).eq
  · exact fun game hg => (parse_ok goParse hn hg).2.ordered

end

/-- what the parser crate answers for a record with two handicap stones, enumerated in an order -/
def twoStones (points : List Point) : String → Except String (List SgfNode)
  | "(;SZ[19]AB[pd][dp];W[dd])" =>
    .ok [.mk [.sz 19 19, .ab points] [.mk [.w (.move ⟨3, 3⟩)] []]]
  | _ => .error "not an SGF"

theorem setup_orderless_two :
    parse (twoStones [⟨15, 3⟩, ⟨3, 15⟩]) "(;SZ[19]AB[pd][dp];W[dd])" 19 6
      = parse (twoStones [⟨3, 15⟩, ⟨15, 3⟩]) "(;SZ[19]AB[pd][dp];W[dd])" 19 6 ∧
    StonesOrdered [[.sz 19 19, .ab [⟨3, 15⟩, ⟨15, 3⟩]], [.w (.move ⟨3, 3⟩)]]
      ⟨19, 6, .japanese, none, [(.black, "Q16"), (.black, "D4")], [(.white, "D16")]⟩ := by
  have hsame : SameNodes [[.sz 19 19, .ab [⟨3, 15⟩, ⟨15, 3⟩]], [.w (.move ⟨3, 3⟩)]]
      [[.sz 19 19, .ab [⟨15, 3⟩, ⟨3, 15⟩]], [.w (.move ⟨3, 3⟩)]] :=
    .cons (.cons (.refl _) (.cons (.ab (List.Perm.swap _ _ _)) .nil))
      (.cons (.cons (.refl _) .nil) .nil)
  have h := setup_orderless (twoStones [⟨3, 15⟩, ⟨15, 3⟩]) (twoStones [⟨15, 3⟩, ⟨3, 15⟩])
    "(;SZ[19]AB[pd][dp];W[dd])" 19 6 rfl rfl hsame
  exact ⟨h.1.symm, h.2 _ (by decide)⟩

end KatagoWs
