/-!
# A seeded random generator

The generator keeps four 64-bit words and steps them by shifts, exclusive or, and rotation
(xoshiro256++).  A seed is spread over the words by a congruential generator with permuted output.
`draw` picks a number below a bound without bias: a draw whose low half falls into the incomplete
last interval is thrown away.
-/

namespace QuantumCircuit

/-- The state of the random generator. -/
structure Generator where
  /-- The first word. -/
  s0 : UInt64
  /-- The second word. -/
  s1 : UInt64
  /-- The third word. -/
  s2 : UInt64
  /-- The fourth word. -/
  s3 : UInt64
deriving DecidableEq, Repr

namespace Generator

/-- A word rotated to the left. -/
def rotateLeft (x : UInt64) (n : UInt64) : UInt64 :=
  (x <<< n) ||| (x >>> (64 - n))

/-- The next state of the generator that spreads a seed. -/
def seedStep (state : UInt64) : UInt64 :=
  state * 6364136223846793005 + 11634580027462260723

/-- The output of a state of the generator that spreads a seed: some of its bits, rotated to the
right by its highest bits. -/
def seedWord (state : UInt64) : UInt64 :=
  let x := (((state >>> 18) ^^^ state) >>> 27).toUInt32
  let n := (state >>> 59).toUInt32
  ((x >>> n) ||| (x <<< ((32 - n) % 32))).toUInt64

/-- The next `count` outputs after a state of the generator that spreads a seed. -/
def seedWords : Nat → UInt64 → List UInt64
  | 0, _ => []
  | count + 1, state =>
      let next := seedStep state
      seedWord next :: seedWords count next

/-- The generator of a seed.  Each of its words is made of two outputs, the lower half first. -/
def ofSeed (seed : Nat) : Generator :=
  let words := seedWords 8 (UInt64.ofNat seed)
  let word (i : Nat) : UInt64 := words.getD (2 * i) 0 ||| (words.getD (2 * i + 1) 0 <<< 32)
  ⟨word 0, word 1, word 2, word 3⟩

/-- The next 64 random bits, and the generator after that. -/
def next (g : Generator) : UInt64 × Generator :=
  let output := rotateLeft (g.s0 + g.s3) 23 + g.s0
  let t := g.s1 <<< 17
  let s2 := g.s2 ^^^ g.s0
  let s3 := g.s3 ^^^ g.s1
  let s1 := g.s1 ^^^ s2
  let s0 := g.s0 ^^^ s3
  (output, ⟨s0, s1, s2 ^^^ t, rotateLeft s3 45⟩)

/-- The number of tries after which a draw takes what it has.  A try fails with a chance of less
than `bound / 2^32`. -/
def drawTries : Nat :=
  64

/-- The number of values of 32 random bits. -/
def halfRange : Nat :=
  0x100000000

/-- A random number below a bound, after at most so many failed tries: the high half of the product
of the bound and the next 32 random bits, unless the low half is beyond the last multiple of the
bound. -/
def drawUpTo (bound : Nat) : Nat → Generator → Nat × Generator
  | 0, g => (0, g)
  | tries + 1, g =>
      let (output, g) := g.next
      let product := (output >>> 32).toNat * bound
      if product % halfRange ≤ halfRange - 1 - (halfRange - bound) % bound then
        (product / halfRange, g)
      else drawUpTo bound tries g

/-- A random number below a bound, and the generator after that. -/
def draw (bound : Nat) (g : Generator) : Nat × Generator :=
  drawUpTo bound drawTries g

end Generator

end QuantumCircuit
