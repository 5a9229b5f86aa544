import PlanSearch.Codec.Refusal

/-!
# Dialogues

A dialogue asks for one thing after another of the same state. What is refused leaves a trace in
the answers and whatever it did to the state; only a fault ends the dialogue.
-/

namespace PlanSearch

/-- A request of a dialogue about a state of type `σ`. -/
abbrev Dialogue (σ : Type) : Type → Type := EStateM Refusal σ

namespace Dialogue

variable {σ τ α : Type}

/-! ## Requests -/

def ofAnswer (x : Answer α) : Dialogue σ α := fun s =>
  match x with
  | .ok a => .ok a s
  | .error e => .error e s

/-- Reads an argument. -/
def want (f : Decoder α) (d : Document) : Dialogue σ α := ofAnswer (.ofReader (f d))

def ofChecked (x : Checked α) : Dialogue σ α := ofAnswer (.ofChecked x)

def ofAction (x : Action σ α) : Dialogue σ α := fun s =>
  match x s with
  | .ok a s => .ok a s
  | .error e s => .error (.failure e) s

def ofStep (x : Step σ α) : Dialogue σ α := fun s =>
  match x s with
  | .ok a s => .ok a s
  | .error f s => .error (.failure (.fault f)) s

/-- Runs `x` on the part of the state that `get` reads and `set` writes. -/
def onPart (get : σ → τ) (set : τ → σ → σ) (x : Dialogue τ α) : Dialogue σ α := fun s =>
  match x (get s) with
  | .ok a t => .ok a (set t s)
  | .error e t => .error e (set t s)

/-- Changes the state and has no answer. -/
def update (f : σ → σ) : Dialogue σ Document := fun s => .ok .null (f s)

/-- Answers what `f` finds and goes on with the state that it leaves. -/
def turn (f : σ → α × σ) : Dialogue σ α := fun s => let (a, s) := f s; .ok a s

/-- Answers what `f` finds. -/
def asks (f : σ → α) : Dialogue σ α := fun s => .ok (f s) s

/-- There is no such request. -/
def reject : Dialogue σ α := ofAnswer (.error (.document (.unexpected "a request")))

/-- The answers of `x`, which is asked for `n` times. -/
def repeated (x : Dialogue σ α) : Nat → Dialogue σ (List α)
  | 0 => pure []
  | n + 1 => do
    let a ← x
    return a :: (← repeated x n)

/-! ## Whole dialogues -/

/-- The answers to requests, each of which is a list that begins with its name. -/
def answers (f : String → Document → Dialogue σ Document) :
    List Document → σ → List Document × σ
  | [], s => ([], s)
  | d :: ds, s =>
    match (do f (← want Decoder.text (d.item 0)) d : Dialogue σ Document) s with
    | .ok v s =>
      let (vs, s) := answers f ds s
      (v :: vs, s)
    | .error e s =>
      if e.isFault then ([e.encode], s)
      else
        let (vs, s) := answers f ds s
        (e.encode :: vs, s)

end Dialogue

end PlanSearch
