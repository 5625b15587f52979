namespace LineBasic.ChaCha

def rotateLeft (x n : UInt32) : UInt32 := (x <<< n) ||| (x >>> (32 - n))

def rotateRight (x n : UInt32) : UInt32 := rotateLeft x (32 - n)

structure Row where
  a : UInt32
  b : UInt32
  c : UInt32
  d : UInt32
  deriving DecidableEq, Repr

namespace Row

def add (x y : Row) : Row := ⟨x.a + y.a, x.b + y.b, x.c + y.c, x.d + y.d⟩

def mix (x y : Row) (n : UInt32) : Row :=
  ⟨rotateLeft (x.a ^^^ y.a) n, rotateLeft (x.b ^^^ y.b) n, rotateLeft (x.c ^^^ y.c) n,
    rotateLeft (x.d ^^^ y.d) n⟩

def turn (x : Row) : Row := ⟨x.b, x.c, x.d, x.a⟩

end Row

structure Key where
  low : Row
  high : Row
  deriving DecidableEq, Repr

structure State where
  constants : Row
  low : Row
  high : Row
  counter : Row
  deriving DecidableEq, Repr

namespace State

def columns (s : State) : State :=
  let w := s.constants.add s.low
  let z := s.counter.mix w 16
  let y := s.high.add z
  let x := s.low.mix y 12
  let w := w.add x
  let z := z.mix w 8
  let y := y.add z
  ⟨w, x.mix y 7, y, z⟩

def doubleRound (s : State) : State :=
  let s := s.columns
  let s := columns ⟨s.constants, s.low.turn, s.high.turn.turn, s.counter.turn.turn.turn⟩
  ⟨s.constants, s.low.turn.turn.turn, s.high.turn.turn, s.counter.turn⟩

def add (s t : State) : State :=
  ⟨s.constants.add t.constants, s.low.add t.low, s.high.add t.high, s.counter.add t.counter⟩

def words (s : State) : List UInt32 :=
  [s.constants, s.low, s.high, s.counter].flatMap fun r => [r.a, r.b, r.c, r.d]

end State

/-- The state before the rounds of block `n`. -/
def start (key : Key) (n : UInt64) : State :=
  ⟨⟨0x61707865, 0x3320646e, 0x79622d32, 0x6b206574⟩, key.low, key.high,
    ⟨n.toUInt32, (n >>> 32).toUInt32, 0, 0⟩⟩

def block (key : Key) (n : UInt64) : List UInt32 :=
  let s := start key n
  (s.add s.doubleRound.doubleRound.doubleRound.doubleRound.doubleRound.doubleRound).words

def word (key : Key) (i : Nat) : UInt32 :=
  (block key (UInt64.ofNat (i / 16))).getD (i % 16) 0

def period : Nat := 16 * UInt64.size

end LineBasic.ChaCha
