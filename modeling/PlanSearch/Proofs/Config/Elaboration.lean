import PlanSearch.Config.Build
import PlanSearch.Proofs.Checked
import PlanSearch.Proofs.Move.Slot

/-!
# The neighbourhood of a configuration

A move configuration can be built if and only if each of its nodes fits: composites have children
and their weights are in order, leaves match a variable. What is built is then the elaboration of
the configuration, a relation between configurations and trees that says of each node which tree
belongs to it, given the orders that the nodes above ask for.

    build domain c = .ok t ↔
      (∀ node ∈ c.nodes, node.Fits domain) ∧ Elaborates domain [] c t      (build_eq_ok)
-/

namespace PlanSearch

/-! ## Orders along a path -/

namespace OrderChoice

/-- The innermost order of its own along a path from the inside out, random if there is none. -/
def nearest : List OrderChoice → Order
  | [] => .random
  | own order :: _ => order
  | inherit :: path => nearest path

/-- `above` stands for what all nodes along the path ask for. -/
def StandsFor (above : OrderChoice) (path : List OrderChoice) : Prop :=
  ∀ order : OrderChoice, order.resolve above = nearest (order :: path)

theorem standsFor_nil : StandsFor inherit [] := by
  intro order
  cases order <;> rfl

theorem StandsFor.cons {above : OrderChoice} {path : List OrderChoice} (h : StandsFor above path)
    (order : OrderChoice) : StandsFor (own (order.resolve above)) (order :: path) := by
  intro inner
  cases inner with
  | inherit => exact h order
  | own _ => rfl

end OrderChoice

/-! ## Filters -/

variable {S V : Type} {domain : Domain S V}

/-- The definition has every name that is asked for. -/
def VariableFilter.AsksFor (f : VariableFilter) (d : Definition S V) : Prop :=
  (∀ name ∈ f.entityClass, d.entityClass = name) ∧ ∀ name ∈ f.variableName, d.cell.name = name

theorem VariableFilter.matches_iff {f : VariableFilter} {d : Definition S V} :
    f.matches d ↔ f.AsksFor d := by
  simp [VariableFilter.matches, VariableFilter.AsksFor, Option.all_eq_true]

/-- The definitions that a filter asks for, in order of their declaration. -/
def Domain.matching (domain : Domain S V) (f : VariableFilter) : List (Definition S V) :=
  domain.definitions.filter f.matches

theorem Domain.matching_ne_nil {f : VariableFilter} :
    domain.matching f ≠ [] ↔ ∃ d ∈ domain.definitions, f.AsksFor d := by
  simp [Domain.matching, VariableFilter.matches_iff]

theorem Domain.select_eq_ok {f : VariableFilter} {ds : List (Definition S V)} :
    domain.select f = .ok ds ↔ domain.matching f ≠ [] ∧ ds = domain.matching f := by
  unfold Domain.select Domain.matching
  cases domain.definitions.filter f.matches with
  | nil => simp
  | cons d ds' => simp [eq_comm]

theorem Domain.select_error {f : VariableFilter} {e : SolverError} (h : domain.select f = .error e) :
    ∃ message, e = .configuration message := by
  unfold Domain.select at h
  split at h
  · cases h
    exact ⟨_, rfl⟩
  · cases h

namespace MoveConfig

/-! ## Nodes -/

/-- A property of all nodes, from the leaves up. -/
@[elab_as_elim]
theorem induction {motive : MoveConfig → Prop}
    (change : ∀ which order, motive (.change which order))
    (swap : ∀ which order, motive (.swap which order))
    (union : ∀ children order weights, (∀ c ∈ children, motive c) →
      motive (.union children order weights))
    (product : ∀ children order, (∀ c ∈ children, motive c) → motive (.product children order)) :
    ∀ c, motive c
  | .change which order => change which order
  | .swap which order => swap which order
  | .union children order weights =>
    union children order weights fun c _ => induction change swap union product c
  | .product children order =>
    product children order fun c _ => induction change swap union product c

mutual

/-- The nodes of a configuration, from the top down. -/
def nodes : MoveConfig → List MoveConfig
  | change which order => [change which order]
  | swap which order => [swap which order]
  | union children order weights => union children order weights :: nodesOf children
  | product children order => product children order :: nodesOf children

def nodesOf : List MoveConfig → List MoveConfig
  | [] => []
  | c :: cs => nodes c ++ nodesOf cs

end

theorem forall_nodesOf {p : MoveConfig → Prop} {cs : List MoveConfig} :
    (∀ node ∈ nodesOf cs, p node) ↔ ∀ c ∈ cs, ∀ node ∈ c.nodes, p node := by
  induction cs with
  | nil => simp [nodesOf]
  | cons c cs ih =>
    simp only [nodesOf, List.forall_mem_append, List.forall_mem_cons, ih]

/-- A weight for each of `n` children, all of them finite and none negative. -/
def WeightsFit (n : Nat) (weights : List Float) : Prop :=
  weights.length = n ∧ ∀ w ∈ weights, w.isFinite ∧ ¬ w < 0.0

/-- A composite has children, and weights that fit them if it has any. -/
def WellFormed : MoveConfig → Prop
  | change _ _ => True
  | swap _ _ => True
  | union children _ weights => children ≠ [] ∧ ∀ ws ∈ weights, WeightsFit children.length ws
  | product children _ => children ≠ []

/-- A leaf asks for variables that the domain has. -/
def Covered (domain : Domain S V) : MoveConfig → Prop
  | change which _ => ∃ d ∈ domain.definitions, which.AsksFor d
  | swap which _ => ∃ d ∈ domain.definitions, which.AsksFor d
  | union _ _ _ => True
  | product _ _ => True

/-- All that has to be right about a node by itself. -/
def Fits (domain : Domain S V) (node : MoveConfig) : Prop :=
  node.WellFormed ∧ node.Covered domain

/-! ## Validation -/

theorem weightViolation?_eq_none {n : Nat} {weights : List Float} :
    weightViolation? n weights = none ↔ WeightsFit n weights := by
  unfold weightViolation? WeightsFit
  by_cases hlength : weights.length = n
  · simp [hlength]
  · simp [hlength]

theorem violationIn?_eq_none {cs : List MoveConfig}
    (h : ∀ c ∈ cs, c.violation? = none ↔ ∀ node ∈ c.nodes, node.WellFormed) :
    violationIn? cs = none ↔ ∀ node ∈ nodesOf cs, node.WellFormed := by
  rw [forall_nodesOf, ← forall₂_congr h]
  clear h
  induction cs with
  | nil => simp [violationIn?]
  | cons c cs ih => simp [violationIn?, ih]

/-- Nothing is wrong with a configuration if every node is well-formed. -/
theorem violation?_eq_none {c : MoveConfig} :
    c.violation? = none ↔ ∀ node ∈ c.nodes, node.WellFormed := by
  induction c using induction with
  | change which order => simp [violation?, nodes, WellFormed]
  | swap which order => simp [violation?, nodes, WellFormed]
  | union children order weights ih =>
    by_cases hnil : children = []
    · simp [violation?, nodes, WellFormed, hnil]
    · simp only [violation?, nodes, WellFormed, List.forall_mem_cons, List.isEmpty_iff, hnil,
        if_false, Option.or_eq_none_iff, violationIn?_eq_none ih,
        ne_eq, not_false_eq_true, true_and]
      refine and_congr_left' ?_
      cases weights with
      | none => simp
      | some ws => simp [weightViolation?_eq_none]
  | product children order ih =>
    by_cases hnil : children = []
    · simp [violation?, nodes, WellFormed, hnil]
    · simp [violation?, nodes, WellFormed, hnil, violationIn?_eq_none ih]

/-! ## Elaboration -/

/-- One tree is taken as it is, several form a union of the given order. -/
inductive Gathers (order : Order) : List (Tree S V) → Tree S V → Prop
  | one (t : Tree S V) : Gathers order [t] t
  | several (ts : List (Tree S V)) (h : 1 < ts.length) :
    Gathers order ts (.union ts order.isRandom .equal)

/-- The tree belongs to the configuration where the nodes above ask for the orders `path`, from the
inside out. A leaf becomes one selector for each variable that it matches; a composite keeps its
children and their weights in place. -/
inductive Elaborates (domain : Domain S V) : List OrderChoice → MoveConfig → Tree S V → Prop
  | change {path which order t}
    (gathers : Gathers (OrderChoice.nearest (order :: path))
      ((domain.matching which).map fun d => .change d (OrderChoice.nearest (order :: path))) t) :
    Elaborates domain path (.change which order) t
  | swap {path which order t}
    (gathers : Gathers (OrderChoice.nearest (order :: path))
      ((domain.matching which).map fun d => .swap d.cell (OrderChoice.nearest (order :: path))) t) :
    Elaborates domain path (.swap which order) t
  | union {path children order weights ts} (length : ts.length = children.length)
    (child : ∀ i (h : i < children.length),
      Elaborates domain (order :: path) children[i] ts[i]) :
    Elaborates domain path (.union children order weights)
      (.union ts (OrderChoice.nearest (order :: path)).isRandom (weights.elim .equal .fixed))
  | product {path children order ts} (length : ts.length = children.length)
    (child : ∀ i (h : i < children.length),
      Elaborates domain (order :: path) children[i] ts[i]) :
    Elaborates domain path (.product children order)
      (.product ts (OrderChoice.nearest (order :: path)).isRandom)

/-! ## What is built -/

theorem gathers_iff {order : Order} {ts : List (Tree S V)} {t : Tree S V} :
    Gathers order ts t ↔ ts ≠ [] ∧ t = unite order ts := by
  constructor
  · intro h
    cases h with
    | one t => exact ⟨List.cons_ne_nil _ _, rfl⟩
    | several ts h =>
      match ts, h with
      | _ :: _ :: _, _ => exact ⟨List.cons_ne_nil _ _, rfl⟩
  · rintro ⟨hne, rfl⟩
    match ts, hne with
    | [t], _ => exact .one t
    | _ :: _ :: _, _ => exact .several _ (by simp)

/-- Leaves: one selector for each definition that is asked for. -/
theorem gather_eq_ok {f : VariableFilter} {order : Order} {leaf : Definition S V → Tree S V}
    {t : Tree S V} :
    (domain.select f >>= fun ds => pure (unite order (ds.map leaf))) = .ok t ↔
      Gathers order ((domain.matching f).map leaf) t := by
  simp only [Checked.bind_eq_ok_iff, Domain.select_eq_ok, gathers_iff, ne_eq, List.map_eq_nil_iff]
  constructor
  · rintro ⟨ds, ⟨hne, rfl⟩, h⟩
    cases h
    exact ⟨hne, rfl⟩
  · rintro ⟨hne, rfl⟩
    exact ⟨_, ⟨hne, rfl⟩, rfl⟩

/-- The children are elaborated one by one, each to the tree that `R` gives it. -/
theorem elaborateAll_eq_ok {above : OrderChoice} {R : MoveConfig → Tree S V → Prop}
    {cs : List MoveConfig} {ts : List (Tree S V)}
    (h : ∀ c ∈ cs, ∀ t, c.elaborate domain above = .ok t ↔ R c t) :
    elaborateAll domain above cs = .ok ts ↔
      ∃ _ : ts.length = cs.length, ∀ i (hi : i < cs.length), R cs[i] ts[i] := by
  induction cs generalizing ts with
  | nil =>
    cases ts with
    | nil => simp [elaborateAll, pure, Except.pure]
    | cons t ts => simp [elaborateAll, pure, Except.pure]
  | cons c cs ih =>
    obtain ⟨hc, hcs⟩ := List.forall_mem_cons.1 h
    simp only [elaborateAll, Checked.bind_eq_ok_iff, hc, ih hcs]
    constructor
    · rintro ⟨t, ht, ts, ⟨hlength, hts⟩, e⟩
      cases e
      refine ⟨congrArg (· + 1) hlength, fun i hi => ?_⟩
      cases i with
      | zero => exact ht
      | succ i => exact hts i (Nat.lt_of_succ_lt_succ hi)
    · rintro ⟨hlength, hts⟩
      match ts, hlength with
      | t :: ts, hlength =>
        exact ⟨t, hts 0 (Nat.succ_pos _), ts, ⟨Nat.succ.inj hlength,
          fun i hi => hts (i + 1) (Nat.succ_lt_succ hi)⟩, rfl⟩

/-- The elaborator answers the tree that belongs to the configuration, and no other. -/
theorem elaborate_eq_ok {c : MoveConfig} {above : OrderChoice} {path : List OrderChoice}
    {t : Tree S V} (h : above.StandsFor path) :
    c.elaborate domain above = .ok t ↔ Elaborates domain path c t := by
  induction c using induction generalizing above path t with
  | change which order =>
    rw [elaborate, h order, gather_eq_ok]
    exact ⟨.change, fun | .change gathers => gathers⟩
  | swap which order =>
    rw [elaborate, h order, gather_eq_ok]
    exact ⟨.swap, fun | .swap gathers => gathers⟩
  | union children order weights ih =>
    simp only [elaborate, Checked.bind_eq_ok_iff,
      elaborateAll_eq_ok fun c hc t => ih c hc (h.cons order)]
    constructor
    · rintro ⟨ts, ⟨hlength, hts⟩, e⟩
      cases e
      rw [h order]
      exact .union hlength hts
    · intro hbelongs
      cases hbelongs with
      | union hlength hts => exact ⟨_, ⟨hlength, hts⟩, by rw [h order]; rfl⟩
  | product children order ih =>
    simp only [elaborate, Checked.bind_eq_ok_iff,
      elaborateAll_eq_ok fun c hc t => ih c hc (h.cons order)]
    constructor
    · rintro ⟨ts, ⟨hlength, hts⟩, e⟩
      cases e
      rw [h order]
      exact .product hlength hts
    · intro hbelongs
      cases hbelongs with
      | product hlength hts => exact ⟨_, ⟨hlength, hts⟩, by rw [h order]; rfl⟩

theorem elaborateAll_error {above : OrderChoice} {cs : List MoveConfig} {e : SolverError}
    (h : elaborateAll domain above cs = .error e) : ∃ c ∈ cs, c.elaborate domain above = .error e := by
  induction cs with
  | nil => cases h
  | cons c cs ih =>
    rcases Checked.bind_eq_error h with hc | ⟨t, -, h⟩
    · exact ⟨c, List.mem_cons_self, hc⟩
    · rcases Checked.bind_eq_error h with hcs | ⟨ts, -, h⟩
      · obtain ⟨c', hmem, hc'⟩ := ih hcs
        exact ⟨c', List.mem_cons_of_mem _ hmem, hc'⟩
      · cases h

/-- Nothing but a leaf without a variable stops the elaborator. -/
theorem elaborate_error {c : MoveConfig} {above : OrderChoice} {e : SolverError}
    (h : c.elaborate domain above = .error e) : ∃ message, e = .configuration message := by
  induction c using induction generalizing above with
  | change which order =>
    rcases Checked.bind_eq_error h with h | ⟨ds, -, h⟩
    · exact Domain.select_error h
    · cases h
  | swap which order =>
    rcases Checked.bind_eq_error h with h | ⟨ds, -, h⟩
    · exact Domain.select_error h
    · cases h
  | union children order weights ih =>
    rcases Checked.bind_eq_error h with h | ⟨ts, -, h⟩
    · obtain ⟨c, hmem, hc⟩ := elaborateAll_error h
      exact ih c hmem hc
    · cases h
  | product children order ih =>
    rcases Checked.bind_eq_error h with h | ⟨ts, -, h⟩
    · obtain ⟨c, hmem, hc⟩ := elaborateAll_error h
      exact ih c hmem hc
    · cases h

/-- Children each of which has a tree have a list of trees. -/
theorem exists_forest {R : MoveConfig → Tree S V → Prop} {cs : List MoveConfig}
    (h : ∀ c ∈ cs, ∃ t, R c t) :
    ∃ (ts : List (Tree S V)) (_ : ts.length = cs.length),
      ∀ i (hi : i < cs.length), R cs[i] ts[i] := by
  choose f hf using fun i (hi : i < cs.length) => h _ (List.getElem_mem hi)
  refine ⟨List.ofFn fun i => f i i.2, List.length_ofFn, fun i hi => ?_⟩
  rw [List.getElem_ofFn]
  exact hf i hi

/-- A tree belongs to a configuration if and only if its leaves match variables. -/
theorem exists_elaborates {c : MoveConfig} {path : List OrderChoice} :
    (∃ t : Tree S V, Elaborates domain path c t) ↔ ∀ node ∈ c.nodes, node.Covered domain := by
  constructor
  · rintro ⟨t, h⟩
    induction h with
    | change gathers =>
      have hne := (gathers_iff.1 gathers).1
      rw [ne_eq, List.map_eq_nil_iff] at hne
      simpa [nodes, Covered] using Domain.matching_ne_nil.1 hne
    | swap gathers =>
      have hne := (gathers_iff.1 gathers).1
      rw [ne_eq, List.map_eq_nil_iff] at hne
      simpa [nodes, Covered] using Domain.matching_ne_nil.1 hne
    | union hlength hts ih =>
      refine List.forall_mem_cons.2 ⟨trivial, forall_nodesOf.2 ?_⟩
      exact List.forall_mem_iff_forall_getElem.2 ih
    | product hlength hts ih =>
      refine List.forall_mem_cons.2 ⟨trivial, forall_nodesOf.2 ?_⟩
      exact List.forall_mem_iff_forall_getElem.2 ih
  · intro h
    induction c using induction generalizing path with
    | change which order =>
      have hne := Domain.matching_ne_nil.2 (h _ List.mem_cons_self)
      exact ⟨_, .change (gathers_iff.2 ⟨by simpa using hne, rfl⟩)⟩
    | swap which order =>
      have hne := Domain.matching_ne_nil.2 (h _ List.mem_cons_self)
      exact ⟨_, .swap (gathers_iff.2 ⟨by simpa using hne, rfl⟩)⟩
    | union children order weights ih =>
      have hbelow := forall_nodesOf.1 (List.forall_mem_cons.1 h).2
      obtain ⟨ts, hlength, hts⟩ := exists_forest fun c hc => ih c hc (hbelow c hc)
      exact ⟨_, .union hlength hts⟩
    | product children order ih =>
      have hbelow := forall_nodesOf.1 (List.forall_mem_cons.1 h).2
      obtain ⟨ts, hlength, hts⟩ := exists_forest fun c hc => ih c hc (hbelow c hc)
      exact ⟨_, .product hlength hts⟩

theorem build_eq_ok {c : MoveConfig} {t : Tree S V} :
    c.build domain = .ok t ↔
      (∀ node ∈ c.nodes, node.WellFormed) ∧ Elaborates domain [] c t := by
  rw [← violation?_eq_none, ← elaborate_eq_ok OrderChoice.standsFor_nil]
  unfold build
  split
  · next v hv => simp [hv]
  · next hv => simp [hv]

theorem build_error {c : MoveConfig} {e : SolverError} (h : c.build domain = .error e) :
    ∃ message, e = .configuration message := by
  unfold build at h
  split at h
  · cases h
    exact ⟨_, rfl⟩
  · exact elaborate_error h

/-- **What a configuration of moves builds.**  It builds a neighbourhood if and only if each of its
nodes fits the domain; what it builds is then its elaboration, which is unique; and all that it can
fail with is an error of the configuration. -/
theorem build_elaborates (domain : Domain S V) (c : MoveConfig) :
    ((∃ t, c.build domain = .ok t) ↔ ∀ node ∈ c.nodes, node.Fits domain) ∧
      (∀ t, c.build domain = .ok t → Elaborates domain [] c t ∧
        ∀ t', Elaborates domain [] c t' → t' = t) ∧
      ∀ e, c.build domain = .error e → ∃ message, e = .configuration message := by
  refine ⟨?_, fun t h => ?_, fun e => build_error⟩
  · simp only [build_eq_ok, exists_and_left, exists_elaborates, Fits, forall_and]
  · obtain ⟨hwell, hbelongs⟩ := build_eq_ok.1 h
    refine ⟨hbelongs, fun t' hbelongs' => ?_⟩
    have h' := build_eq_ok.2 ⟨hwell, hbelongs'⟩
    rw [h] at h'
    cases h'
    rfl

end MoveConfig

/-! ## Two variables of a row -/

namespace Row

/-- A second variable, on the same cells. -/
def mark : Variable Row Nat := { cell with name := "mark" }

def twoVariables : Domain Row Nat where
  definitions :=
    [{ entityClass := "Cell", cell := cell, range := .listed [1, 2] },
     { entityClass := "Cell", cell := mark, range := .listed [0] }]

/-- A weighted union of a leaf for both variables and a product that is to be shuffled, in which
two leaves inherit. -/
def nestedMoves : MoveConfig :=
  .union
    [.change {} .inherit,
     .product
       [.swap { variableName := some "mark" } .inherit, .change {} .inherit] (.own .shuffled)]
    .inherit (some [3.0, 1.0])

def nestedTree : Tree Row Nat :=
  let ds := twoVariables.definitions
  .union
    [.union (ds.map fun d => .change d .random) true .equal,
     .product [.swap mark .shuffled, .union (ds.map fun d => .change d .shuffled) false .equal]
       false]
    true (.fixed [3.0, 1.0])

theorem build_elaborates_nested :
    nestedMoves.build twoVariables = .ok nestedTree ∧
      (∀ node ∈ nestedMoves.nodes, node.Fits twoVariables) ∧
      MoveConfig.Elaborates twoVariables [] nestedMoves nestedTree := by
  have h : nestedMoves.build twoVariables = .ok nestedTree := rfl
  obtain ⟨hbuilds, hbelongs, -⟩ := MoveConfig.build_elaborates twoVariables nestedMoves
  exact ⟨h, hbuilds.1 ⟨_, h⟩, (hbelongs _ h).1⟩

end Row

end PlanSearch
