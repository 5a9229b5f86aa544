import PlanSearch.Proofs.Network.Folding

/-!
# Calls on a builder

A network is declared by calls on a builder, which answers a request for a node with one that is on
record under the same signature if there is one. If equal names stand for equal functions, then each
signature on record belongs to a node which is what the signature says, so that whoever asks for a
node gets one that does what was asked for. What a call refuses leaves everything as it is.

    b.Truthful naming → the requested node is there, with its inputs         (request_provides)
    Folds rep → a new node with an image → Folds again                       (folds_append)
-/

namespace PlanSearch

variable {S : Type} {sh : Shape} {γ : Type}

/-! ## Names -/

/-- What the names of functions stand for. -/
structure Naming (S : Type) where
  test : String → S → Tuple → Checked Bool
  key : String → S → Tuple → Checked Key
  value : String → S → Tuple → Checked Int64

namespace Named

variable {α : Type}

/-- The function is what its name stands for, if it has one. -/
def Means (meaning : String → α) (x : Named α) : Prop :=
  ∀ name, x.name? = some name → x.run = meaning name

/-- The function without its name. -/
def fresh (x : Named α) : Named α := { x with name? := none }

end Named

namespace Signature

/-- What a node of this signature does. -/
def stage (naming : Naming S) : Signature → Stage S sh
  | source family => .source family
  | filter _ test => .filter (naming.test test)
  | join _ _ leftKey rightKey => .join (naming.key leftKey) (naming.key rightKey)
  | group _ key c value => .group (naming.key key) (naming.value value) c

/-- What a node of this signature listens to. -/
def parents : Signature → List (Nat × Side)
  | source _ => []
  | filter input _ => [(input, .left)]
  | join left right _ _ => [(left, .left), (right, .right)]
  | group input _ _ _ => [(input, .left)]

end Signature

/-! ## Nodes on record -/

/-- Whatever is in `nodes` is in `more`. -/
structure Extends (nodes more : Array (Node S sh)) : Prop where
  stage : ∀ i stage, stage? nodes i = some stage → stage? more i = some stage
  feeds : ∀ p e, Feeds nodes p e → Feeds more p e

/-- Node `i` has this stage and listens to these parents. -/
structure Hosts (nodes : Array (Node S sh)) (i : Nat) (stage : Stage S sh)
    (parents : List (Nat × Side)) : Prop where
  stage : stage? nodes i = some stage
  feeds : ∀ q ∈ parents, Feeds nodes q.1 ⟨i, q.2⟩

theorem Hosts.mono {nodes more : Array (Node S sh)} {i : Nat} {stage : Stage S sh}
    {parents : List (Nat × Side)} (h : Hosts nodes i stage parents) (he : Extends nodes more) :
    Hosts more i stage parents :=
  ⟨he.stage i stage h.stage, fun q hq => he.feeds _ _ (h.feeds q hq)⟩

namespace NetworkBuilder

/-- Each signature on record belongs to a node that is what the signature says. -/
def Truthful (naming : Naming S) (b : NetworkBuilder S sh) : Prop :=
  ∀ (s : Signature) (i : Nat), b.signatures[s]? = some i → Hosts b.nodes i (s.stage naming) s.parents

/-- A builder grew by no more than a node of this stage and these parents, and it has such a node. -/
structure Provides (b : NetworkBuilder S sh) (stage : Stage S sh) (parents : List (Nat × Side))
    (out : Stream × NetworkBuilder S sh) : Prop where
  owner : out.1.owner = b.id
  id : out.2.id = b.id
  package : out.2.package = b.package
  keeps : Extends b.nodes out.2.nodes
  hosts : Hosts out.2.nodes out.1.node stage parents
  only : ∀ i st, stage? out.2.nodes i = some st → stage? b.nodes i = some st ∨ st = stage

variable {b : NetworkBuilder S sh} {stage : Stage S sh} {parents : List (Nat × Side)}
  {naming : Naming S}

theorem append_provides (hp : ∀ q ∈ parents, q.1 < b.nodes.size) :
    b.Provides stage parents (b.append stage parents) := by
  obtain ⟨-, hstage, hfeeds⟩ := append_spec b stage hp
  refine ⟨rfl, rfl, rfl, ⟨fun i st hi => ?_, fun p e he => (hfeeds p e).2 (.inl he)⟩,
    ⟨?_, fun q hq => (hfeeds _ _).2 (.inr ⟨rfl, hq⟩)⟩, fun i st hi => ?_⟩
  · rw [hstage, if_neg (Nat.ne_of_lt (lt_size_of_stage? hi)), hi]
  · exact (hstage _).trans (if_pos rfl)
  · rw [hstage] at hi
    split at hi
    · exact .inr (Option.some.inj hi).symm
    · exact .inl hi

/-- A request is answered with a node that does what was asked for, be it new or on record. -/
theorem request_provides (ht : b.Truthful naming) (hp : ∀ q ∈ parents, q.1 < b.nodes.size)
    {signature? : Option Signature}
    (hs : ∀ s, signature? = some s → s.stage naming = stage ∧ s.parents = parents) :
    b.Provides stage parents (b.request signature? stage parents) ∧
      (b.request signature? stage parents).2.Truthful naming ∧
      (b.request signature? stage parents).2.constraints = b.constraints := by
  have happend : b.Provides stage parents (b.append stage parents) := append_provides hp
  cases signature? with
  | none => exact ⟨happend, fun s i hi => (ht s i hi).mono happend.keeps, rfl⟩
  | some signature =>
    obtain ⟨rfl, rfl⟩ := hs signature rfl
    unfold request
    dsimp only
    split
    · next node hnode =>
      exact ⟨⟨rfl, rfl, rfl, ⟨fun _ _ h => h, fun _ _ h => h⟩, ht _ _ hnode,
        fun _ _ h => .inl h⟩, ht, rfl⟩
    · refine ⟨⟨rfl, rfl, rfl, happend.keeps, happend.hosts, happend.only⟩, fun s i hi => ?_, rfl⟩
      rw [Std.HashMap.getElem?_insert] at hi
      split at hi
      · next heq =>
        rw [← Option.some.inj hi, ← eq_of_beq heq]
        exact happend.hosts
      · exact (ht s i hi).mono happend.keeps

/-- Folding goes on when a node is appended for which there is an image. -/
theorem folds_append {b' : NetworkBuilder S sh} {rep : Nat → Nat} {nodes more : Array (Node S sh)}
    {i : Nat} (h : Folds rep b'.nodes nodes) (hw : Wired b'.nodes) (he : Extends nodes more)
    (hp : ∀ q ∈ parents, q.1 < b'.nodes.size)
    (hosts : Hosts more i stage (parents.map fun q => (rep q.1, q.2))) :
    Folds (Function.update rep b'.nodes.size i) (b'.append stage parents).2.nodes more := by
  obtain ⟨-, hstage, hfeeds⟩ := append_spec b' stage hp
  have hold : ∀ {j : Nat}, j < b'.nodes.size → Function.update rep b'.nodes.size i j = rep j :=
    fun hj => Function.update_of_ne (Nat.ne_of_lt hj) _ _
  refine ⟨fun j st hj => ?_, fun p e hpe => ?_⟩
  · rw [hstage] at hj
    split at hj
    · next hnew =>
      rw [hnew, Function.update_self, ← hj, hosts.stage]
    · rw [hold (lt_size_of_stage? hj)]
      exact he.stage _ _ (h.stage j st hj)
  · rcases (hfeeds p e).1 hpe with hpe | ⟨htarget, hmem⟩
    · obtain ⟨st, hst, -⟩ := hw.listened p e hpe
      rw [hold hpe.lt_size, hold (lt_size_of_stage? hst)]
      exact he.feeds _ _ (h.feeds p e hpe)
    · rw [hold (hp _ hmem), htarget, Function.update_self]
      exact hosts.feeds _ (List.mem_map_of_mem hmem)

/-- A new constraint with a scorer of its own. -/
def enlist (b : NetworkBuilder S sh) (input : Nat) (name : ConstraintName) (impact : Impact)
    (weight signed : Score sh) (matchWeight : S → Tuple → Checked Int64) (watched : Bool) :
    NetworkBuilder S sh :=
  { (b.append (.scorer signed matchWeight watched) [(input, .left)]).2 with
    constraints := b.constraints ++ [⟨name, b.nodes.size, weight, impact⟩] }

theorem constrain_eq (b : NetworkBuilder S sh) (name : String) (stream : Stream) (impact : Impact)
    (weight : Score sh) (matchWeight : S → Tuple → Checked Int64) (watched : Bool) :
    b.constrain name stream impact weight matchWeight watched =
      match b.check stream with
      | .error e => .error (.error e)
      | .ok input =>
        let name : ConstraintName := ⟨b.package, name⟩
        if weight.singleLevel?.isNone then
          .error (.error (.configuration
            s!"constraint '{name}' has weight {weight}, which must have exactly one nonzero level"))
        else if b.constraints.any (·.name == name) then
          .error (.error (.configuration s!"constraint '{name}' is defined twice"))
        else
          match weight.scaled impact.sign with
          | .error f => .error (.fault f)
          | .ok signed => .ok (b.enlist input name impact weight signed matchWeight watched) := rfl

end NetworkBuilder

/-! ## Calls on a builder -/

/-- A builder and the streams that its calls returned, in order. -/
structure Blueprint (S : Type) (sh : Shape) where
  builder : NetworkBuilder S sh
  streams : List Stream := []

namespace Blueprint

/-- The stream that was returned `k`-th; a stream of another builder if there is none. -/
def stream (x : Blueprint S sh) (k : Nat) : Stream := x.streams.getD k ⟨0, x.builder.id + 1⟩

/-- What a call returned. -/
def enter (x : Blueprint S sh) :
    Except SolverError (Stream × NetworkBuilder S sh) → Except Failure (Blueprint S sh)
  | .ok (stream, builder) => .ok ⟨builder, x.streams ++ [stream]⟩
  | .error e => .error (.error e)

end Blueprint

/-- A call on a builder, on streams by the numbers under which they were returned. -/
inductive Declaration (S : Type) (sh : Shape) where
  | forEach (family : Nat)
  | filter (input : Nat) (test : Named (S → Tuple → Checked Bool))
  | join (left right : Nat) (leftKey rightKey : Named (S → Tuple → Checked Key))
  | groupBy (input : Nat) (key : Named (S → Tuple → Checked Key)) (c : Collector)
    (value : Named (S → Tuple → Checked Int64))
  | constrain (name : String) (input : Nat) (impact : Impact) (weight : Score sh)
    (matchWeight : S → Tuple → Checked Int64) (watched : Bool)

namespace Declaration

def carryOut (x : Blueprint S sh) : Declaration S sh → Except Failure (Blueprint S sh)
  | forEach family => x.enter (.ok (x.builder.forEach family))
  | filter input test => x.enter (x.builder.filter (x.stream input) test)
  | join left right leftKey rightKey =>
    x.enter (x.builder.join (x.stream left) (x.stream right) leftKey rightKey)
  | groupBy input key c value => x.enter (x.builder.groupBy (x.stream input) key c value)
  | constrain name input impact weight matchWeight watched =>
    match x.builder.constrain name (x.stream input) impact weight matchWeight watched with
    | .ok builder => .ok { x with builder }
    | .error e => .error e

/-- Calls that are refused change nothing. -/
def perform (x : Blueprint S sh) (d : Declaration S sh) : Checked (Blueprint S sh) :=
  match d.carryOut x with
  | .ok y => .ok y
  | .error (.fault f) => .error f
  | .error _ => .ok x

/-- Carries out calls one after another. -/
def performAll (ds : List (Declaration S sh)) (x : Blueprint S sh) : Checked (Blueprint S sh) :=
  ds.foldlM perform x

/-- The functions are what their names stand for. -/
def Follows (naming : Naming S) : Declaration S sh → Prop
  | filter _ test => test.Means naming.test
  | join _ _ leftKey rightKey => leftKey.Means naming.key ∧ rightKey.Means naming.key
  | groupBy _ key _ value => key.Means naming.key ∧ value.Means naming.value
  | _ => True

/-- The call that makes a node of its own, if it is not one for a source. -/
def fresh : Declaration S sh → Declaration S sh
  | filter input test => filter input test.fresh
  | join left right leftKey rightKey => join left right leftKey.fresh rightKey.fresh
  | groupBy input key c value => groupBy input key.fresh c value.fresh
  | d => d

open NetworkBuilder (Declared)

variable {d : Declaration S sh} {x y : Blueprint S sh}

theorem declared_enter {r : Except SolverError (Stream × NetworkBuilder S sh)}
    (hr : ∀ out, r = .ok out → out.2.Declared) (e : x.enter r = .ok y) : y.builder.Declared := by
  cases r with
  | error f => cases e
  | ok out =>
    cases e
    exact hr out rfl

theorem declared_perform (hx : x.builder.Declared) (e : perform x d = .ok y) :
    y.builder.Declared := by
  unfold perform at e
  split at e
  · next z hz =>
    cases e
    cases d with
    | forEach family =>
      cases hz
      exact hx.forEach family
    | filter input test => exact declared_enter (fun out hout => hx.filter hout) hz
    | join left right leftKey rightKey => exact declared_enter (fun out hout => hx.join hout) hz
    | groupBy input key c value => exact declared_enter (fun out hout => hx.groupBy hout) hz
    | constrain name input impact weight matchWeight watched =>
      unfold carryOut at hz
      dsimp only at hz
      split at hz
      · next b hb =>
        cases hz
        exact hx.constrain hb
      · cases hz
  · cases e
  · cases e
    exact hx

theorem declared_performAll {ds : List (Declaration S sh)} (hx : x.builder.Declared)
    (e : performAll ds x = .ok y) : y.builder.Declared := by
  induction ds generalizing x with
  | nil =>
    cases e
    exact hx
  | cons d ds ih =>
    unfold performAll at e
    rw [List.foldlM_cons] at e
    obtain ⟨z, hz, e⟩ := Checked.bind_eq_ok e
    exact ih (declared_perform hx hz) e

end Declaration

end PlanSearch
