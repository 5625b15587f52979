import LineBasic.Memory.Basic

namespace LineBasic

/-- A place to continue at, saved by a subroutine call or a loop: a line record, or none in
direct mode, and the position just after the statement that saved it. -/
inductive Frame
  | gosub (line : Option Nat) (pos : Nat)
  | loop (counter : Variable) (terminal step : Int16) (line : Option Nat) (pos : Nat)
  deriving DecidableEq, Repr

namespace Frame

def gosubTag : UInt8 := byte 'G'

def loopTag : UInt8 := byte 'F'

def size : Frame → Nat
  | gosub .. => 5
  | loop .. => Memory.loopFrameSize

def lineWord : Option Nat → UInt16
  | none => 65535
  | some address => UInt16.ofNat address

def lineOfWord (w : UInt16) : Option Nat :=
  if w = 65535 then none else some w.toNat

theorem lineOfWord_lineWord {line : Option Nat} (h : line.all (· < 65535)) :
    lineOfWord (lineWord line) = line := by
  cases line with
  | none => rfl
  | some address =>
    have ha : address < 65535 := by simpa using h
    have hn : (UInt16.ofNat address).toNat = address :=
      UInt16.toNat_ofNat_of_lt' (by show address < 65536; omega)
    have : UInt16.ofNat address ≠ 65535 := by
      intro he
      have := congrArg UInt16.toNat he
      rw [hn] at this
      simp at this
      omega
    rw [lineWord, lineOfWord, if_neg this, hn]

theorem loopTag_ne : ¬ loopTag = gosubTag := by decide

def encode : Frame → List UInt8
  | gosub line pos => gosubTag :: wordBytes (lineWord line) ++ wordBytes (UInt16.ofNat pos)
  | loop v terminal step line pos =>
    [loopTag, v.letter] ++ wordBytes terminal.toUInt16 ++ wordBytes step.toUInt16 ++
      wordBytes (lineWord line) ++ wordBytes (UInt16.ofNat pos)

def decode? : List UInt8 → Option Frame
  | [] => none
  | tag :: body =>
    if tag = gosubTag then
      match body with
      | l₀ :: l₁ :: p₀ :: p₁ :: _ => some (.gosub (lineOfWord (word l₀ l₁)) (word p₀ p₁).toNat)
      | _ => none
    else if tag = loopTag then
      match body with
      | letter :: t₀ :: t₁ :: s₀ :: s₁ :: l₀ :: l₁ :: p₀ :: p₁ :: _ =>
        (Variable.ofLetter? letter).map fun v =>
          .loop v (word t₀ t₁).toInt16 (word s₀ s₁).toInt16 (lineOfWord (word l₀ l₁))
            (word p₀ p₁).toNat
      | _ => none
    else none

theorem size_pos (frame : Frame) : 0 < frame.size := by
  cases frame <;> simp [size, Memory.loopFrameSize]

theorem length_encode (frame : Frame) : frame.encode.length = frame.size := by
  cases frame <;> rfl

theorem size_le_of_decode? {bytes : List UInt8} {frame : Frame} (h : decode? bytes = some frame) :
    frame.size ≤ bytes.length := by
  unfold decode? at h
  repeat' split at h
  · cases h
  · cases h
    simp [size]
  · cases h
  · obtain ⟨v, -, rfl⟩ := Option.map_eq_some_iff.1 h
    simp [size, Memory.loopFrameSize]
  · cases h
  · cases h

/-- A frame reads back as pushed if its positions fit in 16 bits and no line address is taken for
direct mode. -/
theorem decode?_encode (frame : Frame) (rest : List UInt8)
    (h : match frame with
      | gosub line pos | loop _ _ _ line pos => line.all (· < 65535) ∧ pos < 65536) :
    decode? (frame.encode ++ rest) = some frame := by
  cases frame with
  | gosub line pos =>
    obtain ⟨hl, hp⟩ := h
    simp only [encode, wordBytes, List.cons_append, List.nil_append, decode?, if_pos,
      word_of_wordBytes, lineOfWord_lineWord hl, UInt16.toNat_ofNat_of_lt' hp, toNat_word_of_lt hp]
  | loop counter terminal step line pos =>
    obtain ⟨hl, hp⟩ := h
    simp only [encode, wordBytes, List.cons_append, List.nil_append, decode?, loopTag_ne, if_false,
      if_pos, word_of_wordBytes, lineOfWord_lineWord hl, UInt16.toNat_ofNat_of_lt' hp,
      toNat_word_of_lt hp, Variable.ofLetter?_letter, Option.map_some, Int16.toInt16_toUInt16]

def isLoop : Frame → Bool
  | gosub .. => false
  | loop .. => true

def isLoopOver (v : Option Variable) : Frame → Bool
  | gosub .. => false
  | loop w .. => v.all (· = w)

end Frame

namespace Memory

/-- The frames at the front of some bytes, each with its address; bytes that are no frame end
them. -/
def framesAt (address : Nat) (bytes : List UInt8) : List (Nat × Frame) :=
  match _h : Frame.decode? bytes with
  | none => []
  | some frame => (address, frame) :: framesAt (address + frame.size) (bytes.drop frame.size)
termination_by bytes.length
decreasing_by
  have := Frame.size_le_of_decode? _h
  have := frame.size_pos
  simp only [List.length_drop]
  omega

/-- The frames from the top of the stack down. -/
def frames (m : Memory) : List (Nat × Frame) :=
  framesAt m.stackTop (m.ram.extract m.stackTop m.size).toList

/-- The bytes in use on the control stack. -/
def stackDepth (m : Memory) : Except Fault Nat :=
  difference m.size m.stackTop

def findGosub (m : Memory) : Option (Nat × Frame) :=
  m.frames.find? fun (_, frame) => !frame.isLoop

def findLoop (m : Memory) (v : Option Variable) : Option (Nat × Frame) :=
  m.frames.find? fun (_, frame) => frame.isLoopOver v

def frameAt? (m : Memory) (address : Nat) : Except Fault (Option Frame) :=
  if address ≤ m.size then
    .ok (Frame.decode? (m.ram.extract address (address + loopFrameSize)).toList)
  else .error ⟨address, m.size⟩

def pushFrame (frame : Frame) : Update Unit := do
  let m ← get
  if m.stackTop < m.stackLimit + frame.size then
    throw (.error (.exhausted .stackOverflow))
  let stackTop := m.stackTop - frame.size
  modify fun m => { m with stackTop }
  write stackTop frame.encode

def removeFrame (address : Nat) : Update (Option Frame) := do
  match ← reading (·.frameAt? address) with
  | none => return none
  | some frame =>
    let stackTop := (← get).stackTop
    move stackTop address (stackTop + frame.size)
    modify fun m => { m with stackTop := stackTop + frame.size }
    return some frame

def unwindTo (address : Nat) : Update Unit :=
  modify fun m => { m with stackTop := address }

def unwindPast (address : Nat) : Update (Option Frame) := do
  match ← reading (·.frameAt? address) with
  | none => return none
  | some frame =>
    unwindTo (address + frame.size)
    return some frame

end Memory
end LineBasic
