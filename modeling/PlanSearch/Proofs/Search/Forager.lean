import Mathlib.Data.List.Induction
import PlanSearch.Arena
import PlanSearch.Forager
import PlanSearch.Proofs.Random.Source

/-!
# What a forager holds

A forager and an arena that are given the same candidates agree: the winner's index is that of the
very candidate which came with the winner's score.

    Held l (f, x) → Held (l ++ [(m, a)]) (keep m a (f, x))               (Held.keep)
    Held l (f, x) → (f.pick s).1 = some p →
      ∃ m, x.get? p.index = some m ∧ (m, p.score) ∈ l                    (Held.pick)
-/

namespace PlanSearch

variable {α : Type} {sh : Shape}

/-! ## Arenas -/

namespace Arena

theorem get?_push_self (x : Arena α) (a : α) : (x.push a).2.get? (x.push a).1 = some a := by
  show ((x.slots.push (some a))[x.slots.size]?).join = some a
  rw [Array.getElem?_push_size]
  rfl

theorem get?_empty (i : Nat) : (empty : Arena α).get? i = none := by
  show ((#[] : Array (Option α))[i]?).join = none
  rw [Array.getElem?_empty]
  rfl

theorem get?_push {x : Arena α} {a b : α} {i : Nat} (h : (x.push a).2.get? i = some b) :
    b = a ∨ x.get? i = some b := by
  change ((x.slots.push (some a))[i]?).join = some b at h
  rw [Array.getElem?_push] at h
  split at h
  · exact .inl (Option.some.inj h).symm
  · exact .inr h

theorem get?_push_of_get? {x : Arena α} {i : Nat} {b : α} (h : x.get? i = some b) (a : α) :
    (x.push a).2.get? i = some b := by
  have hi : i < x.slots.size := Nat.lt_of_not_le fun hle => by
    unfold get? at h
    rw [Array.getElem?_eq_none hle] at h
    cases h
  show ((x.slots.push (some a))[i]?).join = some b
  rw [Array.getElem?_push_lt hi, ← Array.getElem?_eq_getElem hi]
  exact h

end Arena

/-! ## Foragers -/

namespace Forager

variable {f : Forager sh} {p q : Pick sh} {s : Source}

/-- The candidates that may still win. -/
def picks : Forager sh → List (Pick sh)
  | first accepted => accepted.toList
  | best _ _ leader => leader.toList
  | uniform _ accepted => accepted

theorem picks_clear (f : Forager sh) : f.clear.picks = [] := by
  cases f <;> rfl

theorem picks_add_ne_nil (f : Forager sh) (p : Pick sh) : (f.add p).picks ≠ [] := by
  cases f with
  | first accepted => cases accepted <;> exact List.cons_ne_nil _ _
  | best limit count leader => cases leader <;> exact List.cons_ne_nil _ _
  | uniform limit accepted => exact List.concat_ne_nil _ _

theorem mem_picks_add (h : q ∈ (f.add p).picks) : q ∈ f.picks ∨ q = p := by
  cases f with
  | first accepted =>
    cases accepted with
    | none => exact .inr (List.mem_singleton.1 h)
    | some leader => exact .inl h
  | best limit count leader =>
    cases leader with
    | none => exact .inr (List.mem_singleton.1 h)
    | some leader =>
      have h : q = if leader.score < p.score then p else leader := List.mem_singleton.1 h
      split at h
      · exact .inr h
      · exact .inl (List.mem_singleton.2 h)
  | uniform limit accepted =>
    rcases List.mem_append.1 h with h | h
    · exact .inl h
    · exact .inr (List.mem_singleton.1 h)

theorem mem_picks_of_pick (h : (f.pick s).1 = some p) : p ∈ f.picks := by
  cases f with
  | first accepted => exact Option.mem_toList.2 h
  | best limit count leader => exact Option.mem_toList.2 h
  | uniform limit accepted =>
    cases accepted with
    | nil => cases h
    | cons leader rest => exact List.mem_of_getElem? h

/-- A forager that holds a candidate has a winner. -/
theorem picks_of_pick_eq_none (h : (f.pick s).1 = none) : f.picks = [] := by
  cases f with
  | first accepted => exact Option.toList_eq_nil_iff.2 h
  | best limit count leader => exact Option.toList_eq_nil_iff.2 h
  | uniform limit accepted =>
    cases accepted with
    | nil => rfl
    | cons leader rest =>
      have hlt := Source.below_lt (Nat.succ_pos rest.length) s
      exact absurd (List.getElem?_eq_none_iff.1 h) (Nat.not_le_of_lt hlt)

/-! ### What a forager keeps from step to step -/

section

variable (f : Forager sh)

theorem clear_clear : f.clear.clear = f.clear := by
  cases f <;> rfl

theorem clear_add (p : Pick sh) : (f.add p).clear = f.clear := by
  cases f with
  | first accepted => cases accepted <;> rfl
  | best limit count leader => cases leader <;> rfl
  | uniform limit accepted => rfl

theorem clear_pick (s : Source) : (f.pick s).2.1.clear = f.clear := by
  cases f with
  | first accepted => rfl
  | best limit count leader => rfl
  | uniform limit accepted => cases accepted <;> rfl

theorem clear_hear (e : Event) : (f.hear e).clear = f.clear := by
  unfold hear
  split
  · exact f.clear_clear
  · rfl

end

/-! ### Stopping early -/

section

variable (f : Forager sh)

theorem canStopEarly_add (p : Pick sh) : (f.add p).canStopEarly = f.canStopEarly := by
  cases f with
  | first accepted => cases accepted <;> rfl
  | best limit count leader => cases leader <;> rfl
  | uniform limit accepted => rfl

theorem canStopEarly_pick (s : Source) : (f.pick s).2.1.canStopEarly = f.canStopEarly := by
  cases f with
  | first accepted => rfl
  | best limit count leader => rfl
  | uniform limit accepted => cases accepted <;> rfl

theorem canStopEarly_hear (e : Event) : (f.hear e).canStopEarly = f.canStopEarly := by
  unfold hear
  split
  · cases f <;> rfl
  · rfl

/-- How many accepted candidates the forager waits for, if it does not wait for all. -/
def limit : Forager sh → Option Nat
  | first _ => some 1
  | best limit _ _ => limit
  | uniform limit _ => limit

theorem limit_clear (f : Forager sh) : f.clear.limit = f.limit := by
  cases f <;> rfl

/-- A forager that waits for a candidate is not done before there is one. -/
theorem isDone_clear {f : Forager sh} (h : f.limit ≠ some 0) : f.clear.isDone = false := by
  cases f with
  | first accepted => rfl
  | best limit count leader =>
    cases limit with
    | none => rfl
    | some n =>
      have hpos : n ≠ 0 := fun hn => h (congrArg some hn)
      simp [clear, isDone, hpos]
  | uniform limit accepted =>
    cases limit with
    | none => rfl
    | some n =>
      have hpos : n ≠ 0 := fun hn => h (congrArg some hn)
      simp [clear, isDone, hpos]

end

end Forager

/-! ## Candidates of a step -/

/-- Stores an accepted candidate and shows it to the forager. -/
def keep (m : α) (a : Score sh) (k : Forager sh × Arena α) : Forager sh × Arena α :=
  (k.1.add ⟨(k.2.push m).1, a⟩, (k.2.push m).2)

def keepAll (l : List (α × Score sh)) (k : Forager sh × Arena α) : Forager sh × Arena α :=
  l.foldl (fun k q => keep q.1 q.2 k) k

theorem keepAll_concat (l : List (α × Score sh)) (m : α) (a : Score sh) (k : Forager sh × Arena α) :
    keepAll (l ++ [(m, a)]) k = keep m a (keepAll l k) :=
  List.foldl_append

/-- The forager knows candidates of `l` by the places that they have in the arena. -/
structure Held (l : List (α × Score sh)) (k : Forager sh × Arena α) : Prop where
  found : ∀ p ∈ k.1.picks, ∃ m, k.2.get? p.index = some m ∧ (m, p.score) ∈ l
  eq_nil : k.1.picks = [] → l = []

namespace Held

variable {l : List (α × Score sh)} {k : Forager sh × Arena α}

theorem empty (f : Forager sh) : Held (α := α) [] (f.clear, .empty) where
  found p hp := by
    rw [f.picks_clear] at hp
    cases hp
  eq_nil _ := rfl

theorem keep (h : Held l k) (m : α) (a : Score sh) : Held (l ++ [(m, a)]) (keep m a k) where
  found p hp := by
    rcases Forager.mem_picks_add hp with hp | rfl
    · obtain ⟨m', hm', hl⟩ := h.found p hp
      exact ⟨m', Arena.get?_push_of_get? hm' m, List.mem_append_left _ hl⟩
    · exact ⟨m, k.2.get?_push_self m, List.mem_append_right _ (List.mem_singleton.2 rfl)⟩
  eq_nil hnil := absurd hnil (Forager.picks_add_ne_nil _ _)

theorem keepAll (f : Forager sh) (l : List (α × Score sh)) :
    Held l (keepAll l (f.clear, .empty)) := by
  induction l using List.reverseRecOn with
  | nil => exact empty f
  | append_singleton l q ih =>
    rw [keepAll_concat]
    exact ih.keep q.1 q.2

theorem pick (h : Held l k) {s : Source} {p : Pick sh} (hp : (k.1.pick s).1 = some p) :
    ∃ m, k.2.get? p.index = some m ∧ (m, p.score) ∈ l :=
  h.found p (Forager.mem_picks_of_pick hp)

theorem eq_nil_of_pick (h : Held l k) {s : Source} (hp : (k.1.pick s).1 = none) : l = [] :=
  h.eq_nil (Forager.picks_of_pick_eq_none hp)

end Held

end PlanSearch
