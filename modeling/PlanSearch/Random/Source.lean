import PlanSearch.Random.KeyStream

/-!
# Random draws

A source of random words, and what is drawn from it: whole words, numbers below a bound, numbers
between zero and one, and permutations. Every draw takes a definite number of words, so that equal
sources give equal draws.
-/

namespace PlanSearch

/-- A source of words: a seeded stream, or any given sequence from a position on. -/
inductive Source where
  | seeded (stream : KeyStream)
  | given (words : Nat → UInt64) (position : Nat)

namespace Source

def ofSeed (seed : UInt64) : Source := .seeded (KeyStream.ofSeed seed)

instance : Inhabited Source := ⟨ofSeed 0⟩

/-- The words of `tape` over and over. -/
def ofTape (tape : List UInt64) : Source :=
  let words := tape.toArray
  .given (fun i => words.getD (i % words.size) 0) 0

/-- The next 32 bits; a given word counts by its upper half. -/
def next32 : Source → UInt32 × Source
  | seeded stream => let (w, stream) := stream.next; (w, seeded stream)
  | given words i => (((words i) >>> 32).toUInt32, given words (i + 1))

/-- The next 64 bits, the low half first. -/
def next64 : Source → UInt64 × Source
  | seeded stream =>
    let (low, stream) := stream.next
    let (high, stream) := stream.next
    (low.toUInt64 ||| (high.toUInt64 <<< 32), seeded stream)
  | given words i => (words i, given words (i + 1))

/-- A number below `n`: the high half of a random fraction of `n`, corrected by the carry of a
second word where the low half could overflow. -/
def below (n : Nat) (s : Source) : Nat × Source :=
  let (x, s) := s.next32
  let product := x.toNat * n
  let high := product / UInt32.size
  let low := product % UInt32.size
  if UInt32.size - n < low then
    let (w, s) := s.next32
    (if UInt32.size ≤ low + w.toNat * n / UInt32.size then high + 1 else high, s)
  else (high, s)

/-- A multiple of 2⁻⁵³ from zero up to, but not including, one. -/
def unit (s : Source) : Float × Source :=
  let (x, s) := s.next64
  ((x >>> 11).toFloat / 9007199254740992.0, s)

/-! ## Shuffling -/

/-- The product of `p` and the numbers from `k` on, as far as it stays below 2³², and the number
that follows the last factor. -/
def widen (p k : Nat) : Nat × Nat :=
  if h : 0 < p ∧ 2 ≤ k ∧ p * k < UInt32.size then widen (p * k) (k + 1) else (p, k)
termination_by UInt32.size - p
decreasing_by
  have : p * 2 ≤ p * k := Nat.mul_le_mul_left p h.2.1
  omega

/-- Choices that one draw still supplies. -/
structure Choices where
  chunk : Nat := 0
  left : Nat := 1

/-- A number below `n`, where the numbers asked for are 1, 2, 3 and so on: one draw supplies as many
of them as its range has room for. -/
def choose (n : Nat) (c : Choices) (s : Source) : Nat × Choices × Source :=
  let (c, s) : Choices × Source :=
    if c.left = 0 then
      let (range, k) := widen n (n + 1)
      let (chunk, s) := s.below range
      (⟨chunk, k - n⟩, s)
    else (c, s)
  if c.left ≤ 1 then (c.chunk, ⟨c.chunk, 0⟩, s)
  else (c.chunk % n, ⟨c.chunk / n, c.left - 1⟩, s)

/-- Exchanges each element from position `n` on, of which there are `k`, with an earlier one. -/
def shuffleFrom {α : Type} : Nat → Nat → Array α → Choices → Source → Array α × Source
  | 0, _, xs, _, s => (xs, s)
  | k + 1, n, xs, c, s =>
    let (i, c, s) := choose (n + 1) c s
    shuffleFrom k (n + 1) (xs.swapIfInBounds n i) c s

def shuffle {α : Type} (xs : List α) (s : Source) : List α × Source :=
  let (xs, s) := shuffleFrom xs.length 0 xs.toArray {} s
  (xs.toList, s)

end Source

end PlanSearch
