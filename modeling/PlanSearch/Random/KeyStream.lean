/-!
# A keyed stream of words

A ChaCha permutation of eight rounds turns a key and a block counter into sixteen 32-bit words; the
stream is one block after another. A 64-bit seed is spread over the eight words of the key by a
permuted congruential generator.
-/

namespace PlanSearch

namespace KeyStream

abbrev Block : Type := Vector UInt32 16

def rotateLeft (x : UInt32) (n : UInt32) : UInt32 := (x <<< n) ||| (x >>> (32 - n))

def rotateRight (x : UInt32) (n : UInt32) : UInt32 :=
  if n = 0 then x else (x >>> n) ||| (x <<< (32 - n))

/-- The quarter round on the words at `a`, `b`, `c`, `d`. -/
def quarter (a b c d : Fin 16) (s : Block) : Block :=
  let s := s.set a (s[a] + s[b])
  let s := s.set d (rotateLeft (s[d] ^^^ s[a]) 16)
  let s := s.set c (s[c] + s[d])
  let s := s.set b (rotateLeft (s[b] ^^^ s[c]) 12)
  let s := s.set a (s[a] + s[b])
  let s := s.set d (rotateLeft (s[d] ^^^ s[a]) 8)
  let s := s.set c (s[c] + s[d])
  s.set b (rotateLeft (s[b] ^^^ s[c]) 7)

/-- A column round and a diagonal round. -/
def doubleRound (s : Block) : Block :=
  s |> quarter 0 4 8 12 |> quarter 1 5 9 13 |> quarter 2 6 10 14 |> quarter 3 7 11 15
    |> quarter 0 5 10 15 |> quarter 1 6 11 12 |> quarter 2 7 8 13 |> quarter 3 4 9 14

/-- The words before the rounds: constants, key, counter. -/
def initial (key : Vector UInt32 8) (counter : UInt64) : Block :=
  #v[0x61707865, 0x3320646e, 0x79622d32, 0x6b206574,
    key[0], key[1], key[2], key[3], key[4], key[5], key[6], key[7],
    counter.toUInt32, (counter >>> 32).toUInt32, 0, 0]

/-- Block `counter` of the stream. -/
def block (key : Vector UInt32 8) (counter : UInt64) : Block :=
  let s := initial key counter
  Vector.zipWith (· + ·) (doubleRound (doubleRound (doubleRound (doubleRound s)))) s

/-- One word of a key, and the next state of the generator that makes it. -/
def keyWord (state : UInt64) : UInt32 × UInt64 :=
  let state := state * 6364136223846793005 + 11634580027462260723
  let x := (((state >>> 18) ^^^ state) >>> 27).toUInt32
  (rotateRight x (state >>> 59).toUInt32, state)

/-- `n` words of a key. -/
def keyWords : Nat → UInt64 → List UInt32
  | 0, _ => []
  | n + 1, state =>
    let (word, state) := keyWord state
    word :: keyWords n state

theorem length_keyWords (n : Nat) (state : UInt64) : (keyWords n state).length = n := by
  induction n generalizing state with
  | zero => rfl
  | succ n ih => simp [keyWords, ih]

def keyOfSeed (seed : UInt64) : Vector UInt32 8 :=
  ⟨(keyWords 8 seed).toArray, by simp [length_keyWords]⟩

end KeyStream

/-- The rest of a keyed stream. -/
structure KeyStream where
  key : Vector UInt32 8
  /-- The number of the next block. -/
  counter : UInt64
  /-- The words that are left of the current block. -/
  buffer : List UInt32
  deriving DecidableEq, Repr

namespace KeyStream

def ofSeed (seed : UInt64) : KeyStream := ⟨keyOfSeed seed, 0, []⟩

def next (s : KeyStream) : UInt32 × KeyStream :=
  match s.buffer with
  | word :: buffer => (word, { s with buffer })
  | [] =>
    let words := block s.key s.counter
    (words[0], { s with counter := s.counter + 1, buffer := words.toList.drop 1 })

end KeyStream

end PlanSearch
