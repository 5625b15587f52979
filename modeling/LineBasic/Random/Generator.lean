namespace LineBasic

/-- A family of random number generators, one for each seed. A number says where one of them
stands. -/
structure Randomness where
  /-- A number below a positive bound, and where the generator stands after it. -/
  below (seed : UInt64) (place bound : Nat) : Nat × Nat

/-- A generator of a family. -/
structure Generator where
  random : Randomness
  seed : UInt64
  place : Nat

namespace Generator

def ofSeed (random : Randomness) (seed : UInt64) : Generator :=
  ⟨random, seed, 0⟩

def reseed (g : Generator) (seed : UInt64) : Generator :=
  ofSeed g.random seed

def below (bound : Nat) (g : Generator) : Nat × Generator :=
  let (n, place) := g.random.below g.seed g.place bound
  (n, { g with place })

end Generator
end LineBasic
