import Mathlib.Tactic.IntervalCases
import PlanSearch.Proofs.Network.Points
import PlanSearch.Proofs.Problem.Conflicts
import PlanSearch.Proofs.Workspace.Incremental

/-!
# Joining queens on their lines

The network filters the queens that are placed, joins them on the numbers of their lines and keeps
the pairs with the left queen first. So what reaches the scorer of a line are the pairs of queens
that share it. The row that stands for a queen that is not placed never gets as far as the joins.

    network = .ok n → n.Carries nodes ∧ n.constraints = Line.all.map Line.constraint  (network_spec)
    inputOf nodes b facts (line.join + 2) .left = .ok ts →
      ((∃ t ∈ ts, t.id = id) ↔ ∃ p ∈ meetings b.rows line, id = pairId p)       (mem_inputOf_scorer)
-/

namespace PlanSearch.Queens

open Checked (Fits)
open NetworkBuilder (Declared)

variable {b : Board} {line : Line}

/-! ## The network -/

namespace Line

def key : Line → Named (Board → Tuple → Checked Key)
  | row => rowKey
  | ascending => ascendingKey
  | descending => descendingKey

def name : Line → String
  | row => "Row conflict"
  | ascending => "Ascending diagonal conflict"
  | descending => "Descending diagonal conflict"

/-- The node that joins queens on a line. Behind it the pairs are ordered, and then they score. -/
def join : Line → Nat
  | row => 2
  | ascending => 5
  | descending => 8

/-- Every pair of queens on one line costs a point. -/
def constraint (line : Line) : Constraint .simple where
  name := ⟨"nqueens", line.name⟩
  scorer := line.join + 2
  weight := .single 0 1
  impact := .penalty

end Line

/-- Every match costs a point. -/
def lostPoint : Stage Board .simple := .scorer (.single 0 (-1)) (fun _ _ => .ok 1) false

def nodes : Array (Node Board .simple) :=
  #[⟨.source Board.queens, [⟨1, .left⟩]⟩,
    ⟨.filter isPlaced.run, [⟨2, .left⟩, ⟨2, .right⟩, ⟨5, .left⟩, ⟨5, .right⟩, ⟨8, .left⟩,
      ⟨8, .right⟩]⟩,
    ⟨.join rowKey.run rowKey.run, [⟨3, .left⟩]⟩,
    ⟨.filter isOrdered.run, [⟨4, .left⟩]⟩,
    ⟨lostPoint, []⟩,
    ⟨.join ascendingKey.run ascendingKey.run, [⟨6, .left⟩]⟩,
    ⟨.filter isOrdered.run, [⟨7, .left⟩]⟩,
    ⟨lostPoint, []⟩,
    ⟨.join descendingKey.run descendingKey.run, [⟨9, .left⟩]⟩,
    ⟨.filter isOrdered.run, [⟨10, .left⟩]⟩,
    ⟨lostPoint, []⟩]

/-- The declarations of the network. -/
def declare : Except Failure (NetworkBuilder Board .simple) := do
  let n : NetworkBuilder Board .simple := { package := "nqueens" }
  let (queens, n) := n.forEach Board.queens
  let (placed, n) ← (n.filter queens isPlaced).mapError .error
  let n ← penalizeEqual placed "Row conflict" rowKey n
  let n ← penalizeEqual placed "Ascending diagonal conflict" ascendingKey n
  penalizeEqual placed "Descending diagonal conflict" descendingKey n

theorem network_eq : network = declare >>= fun b => b.build.mapError .error := by
  unfold network declare
  simp only [bind_assoc]

theorem scaled_point : (Score.single 0 1 : Score .simple).scaled Impact.penalty.sign =
    .ok (Score.single 0 (-1)) := by decide

theorem exists_declare : ∃ b, declare = .ok b ∧ b.nodes = nodes ∧
    b.constraints = Line.all.map Line.constraint := by
  have hlevel : (Score.single 0 1 : Score .simple).singleLevel? = some 0 := by decide
  simp [declare, penalizeEqual, NetworkBuilder.forEach, NetworkBuilder.request,
    NetworkBuilder.append, NetworkBuilder.filter, NetworkBuilder.join, NetworkBuilder.check,
    NetworkBuilder.connect, NetworkBuilder.constrain, scaled_point, hlevel, bind, Except.bind, pure,
    Except.pure, Except.mapError, nodes, isPlaced, isOrdered, rowKey, ascendingKey, descendingKey,
    lostPoint, Line.all, Line.constraint, Line.name, Line.join]

theorem declared_penalizeEqual {n n' : NetworkBuilder Board .simple} {placed : Stream}
    {name : String} {key : Named (Board → Tuple → Checked Key)} (h : n.Declared)
    (e : penalizeEqual placed name key n = .ok n') : n'.Declared := by
  obtain ⟨⟨pairs, n₁⟩, e₁, e⟩ := Checked.bind_eq_ok e
  obtain ⟨⟨ordered, n₂⟩, e₂, e₃⟩ := Checked.bind_eq_ok e
  exact ((h.join (Checked.mapError_eq_ok.1 e₁)).filter (Checked.mapError_eq_ok.1 e₂)).constrain e₃

theorem declared_declare {n : NetworkBuilder Board .simple} (e : declare = .ok n) : n.Declared := by
  obtain ⟨⟨placed, n₁⟩, e₁, e⟩ := Checked.bind_eq_ok e
  obtain ⟨n₂, e₂, e⟩ := Checked.bind_eq_ok e
  obtain ⟨n₃, e₃, e₄⟩ := Checked.bind_eq_ok e
  have h₁ := ((Declared.start 0 "nqueens").forEach Board.queens).filter
    (Checked.mapError_eq_ok.1 e₁)
  exact declared_penalizeEqual (declared_penalizeEqual (declared_penalizeEqual h₁ e₂) e₃) e₄

/-- There is a network, and it carries the nodes. -/
theorem exists_network : ∃ n, network = .ok n := by
  obtain ⟨b, e, -, hconstraints⟩ := exists_declare
  obtain ⟨n, hbuild⟩ : ∃ n, b.build = .ok n := ⟨_, if_neg (by rw [hconstraints]; nofun)⟩
  refine ⟨n, ?_⟩
  rw [network_eq, e]
  exact Checked.mapError_eq_ok.2 hbuild

theorem network_spec {n : Network Board .simple} (e : network = .ok n) :
    n.Carries nodes ∧ n.constraints = Line.all.map Line.constraint := by
  obtain ⟨b, hdeclare, hnodes, hconstraints⟩ := exists_declare
  rw [network_eq, hdeclare] at e
  have hbuild : b.build = .ok n := Checked.mapError_eq_ok.1 e
  refine ⟨hnodes ▸ (declared_declare hdeclare).wellFormed.carries hbuild, ?_⟩
  rw [NetworkBuilder.constraints_of_build hbuild, hconstraints]

/-- What each node of the network is there for. -/
inductive Role : Nat → Stage Board .simple → Prop where
  | source : Role 0 (.source Board.queens)
  | placed : Role 1 (.filter isPlaced.run)
  | join (line : Line) : Role line.join (.join line.key.run line.key.run)
  | ordered (line : Line) : Role (line.join + 1) (.filter isOrdered.run)
  | scorer (line : Line) : Role (line.join + 2) lostPoint

theorem role_iff {i : Nat} {stage : Stage Board .simple} :
    stage? nodes i = some stage ↔ Role i stage := by
  constructor
  · intro h
    have hlt : i < 11 := lt_size_of_stage? h
    interval_cases i <;> cases h
    · exact .source
    · exact .placed
    · exact .join .row
    · exact .ordered .row
    · exact .scorer .row
    · exact .join .ascending
    · exact .ordered .ascending
    · exact .scorer .ascending
    · exact .join .descending
    · exact .ordered .descending
    · exact .scorer .descending
  · intro h
    cases h with
    | source => rfl
    | placed => rfl
    | join line => cases line <;> rfl
    | ordered line => cases line <;> rfl
    | scorer line => cases line <;> rfl

/-! ## Layouts -/

theorem parent?_placed : Reference.parent? nodes 1 .left = some 0 := rfl

theorem parent?_join (line : Line) (side : Side) :
    Reference.parent? nodes line.join side = some 1 := by
  cases line <;> cases side <;> rfl

theorem parent?_ordered (line : Line) :
    Reference.parent? nodes (line.join + 1) .left = some line.join := by
  cases line <;> rfl

theorem parent?_scorer (line : Line) :
    Reference.parent? nodes (line.join + 2) .left = some (line.join + 1) := by
  cases line <;> rfl

theorem inputLayout_placed : inputLayout nodes 1 .left = [some Board.queens] := by
  unfold inputLayout
  rw [parent?_placed]
  exact layout_eq (role_iff.2 .source)

theorem inputLayout_join (line : Line) (side : Side) :
    inputLayout nodes line.join side = [some Board.queens] := by
  unfold inputLayout
  rw [parent?_join]
  exact (layout_eq (role_iff.2 .placed)).trans inputLayout_placed

theorem inputLayout_ordered (line : Line) :
    inputLayout nodes (line.join + 1) .left = [some Board.queens, some Board.queens] := by
  unfold inputLayout
  rw [parent?_ordered]
  refine (layout_eq (role_iff.2 (.join line))).trans ?_
  show inputLayout nodes line.join .left ++ inputLayout nodes line.join .right = _
  rw [inputLayout_join, inputLayout_join]
  rfl

theorem inputLayout_scorer (line : Line) :
    inputLayout nodes (line.join + 2) .left = [some Board.queens, some Board.queens] := by
  have hinput := inputLayout_ordered line
  unfold inputLayout
  rw [parent?_scorer]
  exact (layout_eq (role_iff.2 (.ordered line))).trans hinput

/-! ## What the stages ask -/

/-- What the functions look at: the row of a column, whatever the family of the fact. -/
def contents (b : Board) (f : Fact) : Option (Option Int64) := b.rows[f.index]?

theorem has_iff {f : Fact} : Plan.Has b f ↔ f.family = Board.queens ∧ f.index < b.rows.length := by
  show f.index < (if f.family = Board.queens then b.rows.length else 0) ↔ _
  split
  · next h => simp [h]
  · next h => simp [h]

theorem scoreApart : Plan.ScoreApart contents := ⟨fun _ _ _ => Iff.rfl, fun _ _ _ => rfl⟩

variable {t : Tuple} {i j : Nat}

/-- The column and the row of the first queen of a tuple. -/
def first (b : Board) (t : Tuple) : Checked (Nat × Option Int64) := do
  let column ← t.index 0
  match b.rows[column]? with
  | none => throw .undefined
  | some row => return (column, row)

theorem isPlaced_run (b : Board) (t : Tuple) :
    isPlaced.run b t = first b t >>= fun q => .ok q.2.isSome := by
  unfold isPlaced first
  dsimp only
  cases t.index 0 with
  | error f => rfl
  | ok i =>
    show (match b.rows[i]? with | none => _ | some row => _) =
      (match b.rows[i]? with | none => _ | some row => _) >>= _
    cases b.rows[i]? <;> rfl

/-- The number of the line, as far as it fits; queens that are not placed are taken to be in row
-1. -/
def Line.keyAt (line : Line) (q : Nat × Option Int64) : Checked Key :=
  match line with
  | row => .ok (.int (q.2.getD (-1)))
  | ascending => do return .int (← Checked.add (q.2.getD (-1)) (Int64.ofNat q.1))
  | descending => do return .int (← Checked.sub (q.2.getD (-1)) (Int64.ofNat q.1))

theorem key_run (line : Line) (b : Board) (t : Tuple) :
    line.key.run b t = first b t >>= line.keyAt := by
  have hposition : position b t =
      first b t >>= fun q => .ok (Int64.ofNat q.1, q.2.getD (-1)) := by
    unfold position first
    cases t.index 0 with
    | error f => rfl
    | ok i =>
      show (match b.rows[i]? with | none => _ | some row => _) =
        (match b.rows[i]? with | none => _ | some row => _) >>= _
      cases b.rows[i]? <;> rfl
  have hkey : line.key.run b t = position b t >>= fun q => match line with
      | .row => .ok (.int q.2)
      | .ascending => do return .int (← Checked.add q.2 q.1)
      | .descending => do return .int (← Checked.sub q.2 q.1) := by
    cases line <;> rfl
  rw [hkey, hposition, bind_assoc]
  cases line <;> rfl

theorem local_first : LocalTo contents first := by
  intro p q t ht
  unfold first Tuple.index
  cases hf : t.fact? 0 with
  | none => rfl
  | some f =>
    have hrow : p.rows[f.index]? = q.rows[f.index]? := ht f (Tuple.mem_facts_of_fact? hf)
    show (match p.rows[f.index]? with | none => _ | some row => _) = _
    rw [hrow]
    rfl

theorem local_nodes (i : Nat) (stage : Stage Board .simple) (h : stage? nodes i = some stage) :
    stage.Local contents := by
  have hkey : ∀ line : Line, LocalTo contents line.key.run := fun line p q t ht => by
    rw [key_run, key_run, local_first p q t ht]
  cases role_iff.1 h with
  | source => trivial
  | placed =>
    intro p q t ht
    rw [isPlaced_run, isPlaced_run, local_first p q t ht]
  | join line => exact ⟨hkey line, hkey line⟩
  | ordered line => exact fun _ _ _ _ => rfl
  | scorer line => exact fun _ _ _ _ => rfl

/-! ## What is answered on queens -/

/-- The queen of a column, as a position of a tuple. -/
def queen (column : Nat) : Element := .fact ⟨Board.queens, column⟩

/-- The identity of a match of two queens. -/
def pairId (p : Nat × Nat) : TupleId := [queen p.1, queen p.2]

theorem pairId_injective : Function.Injective pairId := by
  rintro ⟨i, j⟩ ⟨i', j'⟩ h
  simpa [pairId, queen] using h

theorem index_zero {rest : TupleId} (h : t.id = queen i :: rest) : t.index 0 = .ok i := by
  simp [Tuple.index, Tuple.fact?, h, queen]

theorem index_one {x : Element} {rest : TupleId} (h : t.id = x :: queen j :: rest) :
    t.index 1 = .ok j := by
  simp [Tuple.index, Tuple.fact?, h, queen]

variable {rest : TupleId}

theorem first_eq (hid : t.id = queen i :: rest) (hi : i < b.rows.length) :
    first b t = .ok (i, rowAt b.rows i) := by
  have hrow : b.rows[i]? = some (rowAt b.rows i) := by
    unfold rowAt
    rw [List.getElem?_eq_getElem hi]
    rfl
  unfold first
  rw [index_zero hid]
  show (match b.rows[i]? with | none => _ | some row => _) = _
  rw [hrow]
  rfl

theorem isPlaced_queen (hid : t.id = queen i :: rest) (hi : i < b.rows.length) :
    isPlaced.run b t = .ok (rowAt b.rows i).isSome := by
  rw [isPlaced_run, first_eq hid hi]
  rfl

/-- Columns are numbers of the machine. -/
def Board.Addressable (b : Board) : Prop := b.rows.length ≤ 2 ^ 63

theorem key_queen (hb : b.Addressable) (hid : t.id = queen i :: rest) (hi : i < b.rows.length) :
    line.key.run b t =
      Checked.fit (line.through i ((rowAt b.rows i).getD (-1))) >>= fun x => .ok (.int x) := by
  have hcolumn : (Int64.ofNat i).toInt = i := by
    unfold Board.Addressable at hb
    exact Int64.toInt_ofNat_of_lt (by omega)
  rw [key_run, first_eq hid hi]
  show line.keyAt (i, rowAt b.rows i) = _
  cases line with
  | row =>
    show _ = Checked.fit ((rowAt b.rows i).getD (-1)).toInt >>= _
    rw [Checked.fit_toInt]
    rfl
  | ascending =>
    unfold Line.keyAt Checked.add Line.through
    rw [hcolumn]
    rfl
  | descending =>
    unfold Line.keyAt Checked.sub Line.through
    rw [hcolumn]
    rfl

theorem isOrdered_queens (hid : t.id = [queen i, queen j]) :
    isOrdered.run b t = .ok (decide (i < j)) := by
  show (t.index 0 >>= fun l => t.index 1 >>= fun r => .ok (decide (l < r))) = _
  rw [index_zero hid, index_one hid]
  rfl

theorem eq_queen_of_family? {x : Element} (h : x.family? = some Board.queens) :
    ∃ i, x = queen i := by
  cases x with
  | fact f =>
    obtain ⟨family, i⟩ := f
    cases h
    exact ⟨i, rfl⟩
  | group k => cases h

theorem lt_length_of_mem (ht : ∀ f ∈ TupleId.facts t.id, Plan.Has b f) (hi : queen i ∈ t.id) :
    i < b.rows.length :=
  (has_iff.1 (ht _ (Tuple.mem_facts.2 hi))).2

theorem exists_queen (ht : t.Over [some Board.queens] (Plan.Has b)) :
    ∃ i, i < b.rows.length ∧ t.id = [queen i] := by
  obtain ⟨⟨hlayout, -⟩, hhas⟩ := ht
  obtain ⟨x, hid, hx⟩ := List.map_eq_singleton_iff.1 hlayout
  obtain ⟨i, rfl⟩ := eq_queen_of_family? hx
  exact ⟨i, lt_length_of_mem hhas (hid ▸ List.mem_cons_self), hid⟩

theorem exists_queens (ht : t.Over [some Board.queens, some Board.queens] (Plan.Has b)) :
    ∃ i j, i < b.rows.length ∧ j < b.rows.length ∧ t.id = [queen i, queen j] := by
  obtain ⟨⟨hlayout, -⟩, hhas⟩ := ht
  obtain ⟨x, xs, hid, hx, hxs⟩ := List.map_eq_cons_iff.1 hlayout
  obtain ⟨y, rfl, hy⟩ := List.map_eq_singleton_iff.1 hxs
  obtain ⟨i, rfl⟩ := eq_queen_of_family? hx
  obtain ⟨j, rfl⟩ := eq_queen_of_family? hy
  refine ⟨i, j, lt_length_of_mem hhas ?_, lt_length_of_mem hhas ?_, hid⟩
  · rw [hid]
    exact List.mem_cons_self
  · rw [hid]
    exact List.mem_cons_of_mem _ List.mem_cons_self

/-! ## Answers -/

/-- All functions answer, except that the number of a line may not fit. -/
theorem answersAt_or_join {stage : Stage Board .simple} {side : Side}
    (hstage : stage? nodes i = some stage) (hside : side ∈ stage.inputs)
    (ht : t.Over (inputLayout nodes i side) (Plan.Has b)) :
    stage.AnswersAt b side t ∨ ∃ (line : Line) (q : Nat), q < b.rows.length ∧ t.id = [queen q] ∧
      stage = .join line.key.run line.key.run := by
  cases role_iff.1 hstage with
  | source => exact .inl trivial
  | placed =>
    cases List.mem_singleton.1 hside
    rw [inputLayout_placed] at ht
    obtain ⟨q, hq, hid⟩ := exists_queen ht
    exact .inl ⟨_, isPlaced_queen hid hq⟩
  | join line =>
    rw [inputLayout_join] at ht
    obtain ⟨q, hq, hid⟩ := exists_queen ht
    exact .inr ⟨line, q, hq, hid, rfl⟩
  | ordered line =>
    cases List.mem_singleton.1 hside
    rw [inputLayout_ordered] at ht
    obtain ⟨q, r, -, -, hid⟩ := exists_queens ht
    exact .inl ⟨_, isOrdered_queens hid⟩
  | scorer line => exact .inl ⟨1, rfl⟩

theorem definedOn_nodes (hb : b.Addressable) : Session.DefinedOn nodes (Plan.Has b) b := by
  intro i stage side hstage hside t ht
  rcases answersAt_or_join hstage hside ht with h | ⟨line, q, hq, hid, rfl⟩
  · exact h.definedAt
  · have hdefined : line.key.run b t ≠ .error .undefined := by
      intro e
      rw [key_queen hb hid hq] at e
      have hover : Fault.undefined = .overflow :=
        Checked.error_of_bind (fun _ => Checked.fit_eq_error) (fun _ _ e => by cases e) e
      cases hover
    cases side <;> exact hdefined

theorem InRange.addressable (h : InRange b.rows) : b.Addressable := by
  have hsquare := Nat.le_mul_self b.rows.length
  have hpairs := h.pairs
  unfold Board.Addressable
  omega

/-- The line through a column and the row that stands for an unplaced queen has a number. -/
theorem InRange.fits_through (h : InRange b.rows) (line : Line) (hi : i < b.rows.length) :
    Fits (line.through i ((rowAt b.rows i).getD (-1))) := by
  cases hr : rowAt b.rows i with
  | some r => exact h.lines line i r hr
  | none =>
    have hb := h.addressable
    have hminus : (-1 : Int64).toInt = -1 := rfl
    unfold Board.Addressable at hb
    cases line with
    | row => exact Checked.fits_toInt _
    | ascending =>
      simp only [Line.through, Option.getD_none, hminus]
      constructor <;> omega
    | descending =>
      simp only [Line.through, Option.getD_none, hminus]
      constructor <;> omega

theorem answersOver_nodes (h : InRange b.rows) : Session.AnswersOver nodes (Plan.Has b) b := by
  intro i stage side hstage hside t ht
  rcases answersAt_or_join hstage hside ht with h' | ⟨line, q, hq, hid, rfl⟩
  · exact h'
  · have hanswers : ∃ k, line.key.run b t = .ok k := by
      obtain ⟨x, hx⟩ := Checked.fits_iff.1 (h.fits_through line hq)
      exact ⟨.int x, by rw [key_queen h.addressable hid hq, Checked.fit_eq_ok_iff.2 hx]; rfl⟩
    cases side <;> exact hanswers

/-! ## Points -/

theorem countsPoints_nodes (i : Nat) (stage : Stage Board .simple)
    (hstage : stage? nodes i = some stage) : stage.CountsPoints := by
  cases role_iff.1 hstage with
  | scorer line =>
    refine ⟨fun _ _ => rfl, fun l => ?_⟩
    cases l with
    | zero => decide
    | succ l => exact Nat.zero_le _
  | _ => trivial

/-- There are at most as many matches as pairs of columns. -/
theorem limited_nodes (b : Board) :
    Session.Limited nodes (Plan.Has b) (b.rows.length * b.rows.length) := by
  intro i stage hstage hscorer ids hnodup hids
  cases role_iff.1 hstage with
  | scorer line =>
    have hsubset : ids.toFinset ⊆
        (Finset.range b.rows.length ×ˢ Finset.range b.rows.length).image pairId := by
      intro id hid
      obtain ⟨t, rfl, ht⟩ := hids id (List.mem_toFinset.1 hid)
      rw [inputLayout_scorer] at ht
      obtain ⟨q, r, hq, hr, hid⟩ := exists_queens ht
      refine Finset.mem_image.2 ⟨(q, r), Finset.mem_product.2 ?_, hid.symm⟩
      exact ⟨Finset.mem_range.2 hq, Finset.mem_range.2 hr⟩
    have hcard := (Finset.card_le_card hsubset).trans Finset.card_image_le
    rw [List.toFinset_card_of_nodup hnodup, Finset.card_product, Finset.card_range] at hcard
    exact hcard
  | _ => cases hscorer

/-! ## What is derived -/

section

variable {facts : List Fact} (hfacts : ∀ f, f ∈ facts ↔ Plan.Has b f) {ts : List Tuple}

include hfacts

theorem mem_stream_placed (e : Reference.stream nodes b facts 1 = .ok ts) (t : Tuple) :
    t ∈ ts ↔ ∃ i r, rowAt b.rows i = some r ∧ t = ⟨[queen i], [], 1⟩ := by
  rw [Reference.stream_eq, role_iff.2 .placed] at e
  obtain ⟨us, hus, hts⟩ := Reference.mem_of_filter e
  unfold Reference.inputOf at hus
  rw [parent?_placed] at hus
  dsimp only at hus
  rw [Reference.stream_eq, role_iff.2 .source] at hus
  have hsource := Reference.mem_of_source hus
  rw [hts]
  constructor
  · rintro ⟨u, hu, htest, rfl⟩
    obtain ⟨⟨family, i⟩, hf, hfamily, rfl⟩ := (hsource u).1 hu
    obtain ⟨-, hi⟩ := has_iff.1 ((hfacts _).1 hf)
    obtain rfl : family = Board.queens := hfamily
    rw [isPlaced_queen rfl hi, Except.ok.injEq, Option.isSome_iff_exists] at htest
    obtain ⟨r, hr⟩ := htest
    exact ⟨i, r, hr, rfl⟩
  · rintro ⟨i, r, hr, rfl⟩
    have hi := lt_length_of_rowAt hr
    refine ⟨Tuple.ofFact ⟨Board.queens, i⟩ 0, (hsource _).2 ?_, ?_, rfl⟩
    · exact ⟨_, (hfacts _).2 (has_iff.2 ⟨rfl, hi⟩), rfl, rfl⟩
    · rw [isPlaced_queen rfl hi, hr]
      rfl

/-- The pairs of placed queens that share a line, in either order. -/
theorem mem_stream_join (hb : b.Addressable)
    (e : Reference.stream nodes b facts line.join = .ok ts) (t : Tuple) :
    t ∈ ts ↔ ∃ i j, Meets b.rows line i j ∧ t = ⟨[queen i, queen j], [], line.join⟩ := by
  rw [Reference.stream_eq, role_iff.2 (.join line)] at e
  obtain ⟨ls, rs, hls, hrs, hleft, -, hts⟩ := Reference.mem_of_join e
  unfold Reference.inputOf at hls hrs
  rw [parent?_join] at hls hrs
  have hl := mem_stream_placed hfacts hls
  have hr := mem_stream_placed hfacts hrs
  have hkey : ∀ {i : Nat} {r : Int64} {k : Key}, rowAt b.rows i = some r →
      (line.key.run b ⟨[queen i], [], 1⟩ = .ok k ↔
        ∃ x : Int64, x.toInt = line.through i r ∧ k = .int x) := by
    intro i r k hi
    rw [key_queen hb rfl (lt_length_of_rowAt hi), hi, Option.getD_some, Checked.bind_eq_ok_iff]
    simp only [Checked.fit_eq_ok_iff, Except.ok.injEq, eq_comm (a := k)]
  rw [hts]
  constructor
  · rintro ⟨_, hp, _, hq, k, hpk, hqk, rfl⟩
    obtain ⟨i, r, hi, rfl⟩ := (hl _).1 hp
    obtain ⟨j, s, hj, rfl⟩ := (hr _).1 hq
    obtain ⟨x, hx, rfl⟩ := (hkey hi).1 hpk
    obtain ⟨y, hy, hxy⟩ := (hkey hj).1 hqk
    cases hxy
    exact ⟨i, j, ⟨r, hi, s, hj, hx.symm.trans hy⟩, rfl⟩
  · rintro ⟨i, j, ⟨r, hi, s, hj, hmeet⟩, rfl⟩
    have hp := (hl _).2 ⟨i, r, hi, rfl⟩
    obtain ⟨k, hk⟩ := hleft _ hp
    obtain ⟨x, hx, rfl⟩ := (hkey hi).1 hk
    exact ⟨_, hp, _, (hr _).2 ⟨j, s, hj, rfl⟩, .int x, hk,
      (hkey hj).2 ⟨x, hx.trans hmeet, rfl⟩, rfl⟩

/-- A constraint has the pairs of queens that share a line for its matches. -/
theorem mem_inputOf_scorer (hb : b.Addressable)
    (e : Reference.inputOf nodes b facts (line.join + 2) .left = .ok ts) (id : TupleId) :
    (∃ t ∈ ts, t.id = id) ↔ ∃ p ∈ meetings b.rows line, id = pairId p := by
  unfold Reference.inputOf at e
  rw [parent?_scorer] at e
  dsimp only at e
  rw [Reference.stream_eq, role_iff.2 (.ordered line)] at e
  obtain ⟨us, hus, hts⟩ := Reference.mem_of_filter e
  unfold Reference.inputOf at hus
  rw [parent?_ordered] at hus
  have hjoin := mem_stream_join hfacts hb hus
  constructor
  · rintro ⟨t, ht, rfl⟩
    obtain ⟨u, hu, htest, rfl⟩ := (hts t).1 ht
    obtain ⟨i, j, hmeet, rfl⟩ := (hjoin u).1 hu
    rw [isOrdered_queens rfl, Except.ok.injEq, decide_eq_true_eq] at htest
    exact ⟨(i, j), mem_meetings.2 ⟨htest, hmeet⟩, rfl⟩
  · rintro ⟨⟨i, j⟩, hp, rfl⟩
    obtain ⟨hlt, hmeet⟩ := mem_meetings.1 hp
    refine ⟨_, (hts _).2 ⟨_, (hjoin _).2 ⟨i, j, hmeet, rfl⟩, ?_, rfl⟩, rfl⟩
    rw [isOrdered_queens rfl, decide_eq_true hlt]

end

end PlanSearch.Queens
