import PlanSearch.Checked

/-!
# Scores

A score is a list of 64-bit levels, the most important one first. Its `Shape` fixes how many levels
there are and which of them are hard. Scores are compared level by level from the left, and each
operation acts on every level and fails as a whole when one level overflows.

    add a b = .ok c ↔ c.exact = zipWith (· + ·) a.exact b.exact        (add_eq_ok_iff)
-/

namespace PlanSearch

/-- The kinds of score a problem may use. -/
inductive Shape where
  | simple
  | hardSoft
  | hardMediumSoft
  deriving DecidableEq, Repr, Inhabited

/-- How much a level matters. -/
inductive Importance where
  | hard
  | medium
  | soft
  deriving DecidableEq, Repr

namespace Shape

def levels : Shape → List Importance
  | simple => [.soft]
  | hardSoft => [.hard, .soft]
  | hardMediumSoft => [.hard, .medium, .soft]

def size (sh : Shape) : Nat := sh.levels.length

/-- The importance of level `i`; beyond the last level everything is soft. -/
def importance (sh : Shape) (i : Nat) : Importance := sh.levels.getD i .soft

end Shape

/-- Levels from the most to the least important one. -/
structure Score (sh : Shape) where
  levels : List Int64
  length_levels : levels.length = sh.size
  deriving DecidableEq

namespace Score

variable {sh : Shape}

@[ext] theorem ext {a b : Score sh} (h : a.levels = b.levels) : a = b := by
  cases a; cases b; cases h; rfl

/-! ## Construction -/

def ofLevels? (xs : List Int64) : Option (Score sh) :=
  if h : xs.length = sh.size then some ⟨xs, h⟩ else none

/-- The integers that the levels denote. -/
def exact (a : Score sh) : List Int := a.levels.map Int64.toInt

/-- The score with these exact levels. -/
def ofExact (xs : List Int) (h : xs.length = sh.size) : Checked (Score sh) :=
  if ∀ x ∈ xs, Checked.Fits x then .ok ⟨xs.map Int64.ofInt, by simpa using h⟩
  else .error .overflow

def zero : Score sh := ⟨List.replicate sh.size 0, by simp⟩

instance : Inhabited (Score sh) := ⟨zero⟩

/-- `n` on level `i` and nothing elsewhere. -/
def single (i : Nat) (n : Int64) : Score sh :=
  ⟨(List.replicate sh.size 0).set i n, by simp⟩

/-! ## Arithmetic -/

def add (a b : Score sh) : Checked (Score sh) :=
  ofExact (List.zipWith (· + ·) a.exact b.exact) (by simp [exact, a.length_levels, b.length_levels])

def sub (a b : Score sh) : Checked (Score sh) :=
  ofExact (List.zipWith (· - ·) a.exact b.exact) (by simp [exact, a.length_levels, b.length_levels])

def neg (a : Score sh) : Checked (Score sh) :=
  ofExact (a.exact.map (- ·)) (by simp [exact, a.length_levels])

def abs (a : Score sh) : Checked (Score sh) :=
  ofExact (a.exact.map fun x => (x.natAbs : Int)) (by simp [exact, a.length_levels])

/-- Every level times `k`. -/
def scaled (a : Score sh) (k : Int64) : Checked (Score sh) :=
  ofExact (a.exact.map (· * k.toInt)) (by simp [exact, a.length_levels])

/-- The sum from the left, starting at zero. -/
def sum (scores : List (Score sh)) : Checked (Score sh) :=
  scores.foldlM add zero

/-! ## Order and predicates -/

/-- The first level that differs decides. -/
def compareLevels : List Int64 → List Int64 → Ordering
  | x :: xs, y :: ys => (compare x y).then (compareLevels xs ys)
  | _, _ => .eq

instance : Ord (Score sh) := ⟨fun a b => compareLevels a.levels b.levels⟩

instance : LT (Score sh) := ⟨fun a b => compare a b = .lt⟩

instance : LE (Score sh) := ⟨fun a b => compare a b ≠ .gt⟩

instance (a b : Score sh) : Decidable (a < b) := inferInstanceAs (Decidable (compare a b = .lt))

instance (a b : Score sh) : Decidable (a ≤ b) := inferInstanceAs (Decidable (compare a b ≠ .gt))

/-- No hard level is negative. -/
def isFeasible (a : Score sh) : Bool :=
  (sh.levels.zip a.levels).all fun (importance, x) => importance != .hard || 0 ≤ x

def isZero (a : Score sh) : Bool := a.levels.all (· == 0)

/-- The level that is not zero, if there is exactly one. -/
def singleLevel? (a : Score sh) : Option Nat :=
  match (List.range a.levels.length).filter fun i => a.levels.getD i 0 != 0 with
  | [i] => some i
  | _ => none

/-! ## Lemmas -/

theorem length_exact (a : Score sh) : a.exact.length = sh.size := by
  simp [exact, a.length_levels]

theorem exact_inj {a b : Score sh} : a.exact = b.exact ↔ a = b := by
  constructor
  · intro h
    apply Score.ext
    exact (List.map_inj_right (fun x y hxy => Int64.toInt_inj.1 hxy)).1 h
  · rintro rfl; rfl

theorem ofExact_eq_ok_iff {xs : List Int} {h : xs.length = sh.size} {a : Score sh} :
    ofExact xs h = .ok a ↔ a.exact = xs := by
  unfold ofExact
  split
  · rename_i hf
    have hx : (xs.map Int64.ofInt).map Int64.toInt = xs := by
      rw [List.map_map]
      refine (List.map_congr_left ?_).trans (List.map_id _)
      intro x hx
      exact Int64.toInt_ofInt_of_le (hf x hx).1 (hf x hx).2
    constructor
    · intro e; cases e; exact hx
    · intro e
      congr 1
      exact exact_inj.1 (hx.trans e.symm)
  · rename_i hf
    constructor
    · intro e; cases e
    · rintro rfl
      refine absurd ?_ hf
      intro x hx
      obtain ⟨y, _, rfl⟩ := List.mem_map.1 hx
      exact Checked.fits_toInt y

theorem add_eq_ok_iff {a b c : Score sh} :
    add a b = .ok c ↔ c.exact = List.zipWith (· + ·) a.exact b.exact := ofExact_eq_ok_iff

theorem sub_eq_ok_iff {a b c : Score sh} :
    sub a b = .ok c ↔ c.exact = List.zipWith (· - ·) a.exact b.exact := ofExact_eq_ok_iff

theorem neg_eq_ok_iff {a c : Score sh} :
    neg a = .ok c ↔ c.exact = a.exact.map (- ·) := ofExact_eq_ok_iff

theorem scaled_eq_ok_iff {a c : Score sh} {k : Int64} :
    scaled a k = .ok c ↔ c.exact = a.exact.map (· * k.toInt) := ofExact_eq_ok_iff

end Score

end PlanSearch
