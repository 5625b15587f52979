import LineBasic.Random.ChaCha
import LineBasic.Random.Generator

namespace LineBasic

structure Keystream where
  key : ChaCha.Key
  drawn : Nat
  deriving DecidableEq, Repr

namespace Keystream

def stir (s : UInt64) : UInt64 :=
  s * 6364136223846793005 + 11634580027462260723

/-- The key word of a state: its high bits folded and rotated right by its highest five. -/
def keyWord (s : UInt64) : UInt32 :=
  ChaCha.rotateRight (((s >>> 18) ^^^ s) >>> 27).toUInt32 (s >>> 59).toUInt32

def keyRow (s : UInt64) : ChaCha.Row × UInt64 :=
  let s₁ := stir s
  let s₂ := stir s₁
  let s₃ := stir s₂
  let s₄ := stir s₃
  (⟨keyWord s₁, keyWord s₂, keyWord s₃, keyWord s₄⟩, s₄)

def keyOfSeed (seed : UInt64) : ChaCha.Key :=
  let (low, s) := keyRow seed
  let (high, _) := keyRow s
  ⟨low, high⟩

def draw (k : Keystream) : UInt32 × Keystream :=
  (ChaCha.word k.key k.drawn, { k with drawn := k.drawn + 1 })

def drawBelow (bound zone : Nat) : Nat → Keystream → Nat × Keystream
  | 0, k => (0, k)
  | tries + 1, k =>
    let (v, k) := k.draw
    let product := v.toNat * bound
    if product % UInt32.size ≤ zone then (product / UInt32.size, k) else drawBelow bound
      zone tries k

/-- A number below a positive bound, each equally likely. After a whole period no further
word would be new. -/
def below (bound : Nat) (k : Keystream) : Nat × Keystream :=
  drawBelow bound (UInt32.size - 1 - (UInt32.size - bound) % bound) ChaCha.period k

def randomness : Randomness where
  below seed place bound :=
    let (n, k) := below bound ⟨keyOfSeed seed, place⟩
    (n, k.drawn)

end Keystream
end LineBasic
