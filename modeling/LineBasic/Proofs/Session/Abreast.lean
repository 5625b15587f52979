import LineBasic.Proofs.Session.InStep

namespace LineBasic

/-- The rest of the line is the same where the program goes on after a line has been asked for. -/
def Coupling.Awaits (C : Coupling) (current : Option Nat) : Purpose → Prop
  | .command => True
  | .reply _ resume => C.Shares current resume

namespace Interpreter

/-- What relates two interpreters before a phase. While a line is typed the bytes of it that have
been typed are the same, and there is room for its end in both. -/
def Abreast (C : Coupling) (exact : Prop) (i j : Interpreter) : Phase → Prop
  | .cold | .restart | .prompt | .line | .bye => Coupled C exact i j
  | .direct | .poll | .execute | .proceed | .nextLine =>
    Coupled C exact i j ∧ j.textPos = i.textPos ∧ C.Shares i.currentLine i.textPos
  | .ask purpose => Coupled C exact i j ∧ C.Awaits i.currentLine purpose
  | .edit purpose pos => Coupled C exact i j ∧ C.Awaits i.currentLine purpose ∧
    Memory.Agree i.memory.ram j.memory.ram i.memory.entryStart pos ∧ j.memory.Typing pos

variable {C : Coupling} {exact : Prop} {l : Listing} {frames : List Frame} {i j : Interpreter}

namespace InStep

theorem proceed (h : InStep C exact l frames i j) : Abreast C exact i j .proceed :=
  ⟨h.toCoupled, h.textPos_eq, h.shares⟩

theorem abreast (h : InStep C exact l frames i j) {phase : Phase}
    (hp : phase ∈ [.proceed, .nextLine, .restart, .bye]) : Abreast C exact i j phase := by
  simp only [List.mem_cons, List.not_mem_nil, or_false] at hp
  rcases hp with rfl | rfl | rfl | rfl
  · exact h.proceed
  · exact h.proceed
  · exact h.toCoupled
  · exact h.toCoupled

end InStep
end Interpreter

namespace Session
variable {σ τ α β : Type} {R : σ → τ → Prop} {C : Coupling} {exact : Prop} {l : Listing}
  {frames : List Frame}

open Interpreter (InStep Abreast Coupled)

section
variable {pre P : Interpreter → Interpreter → Prop} {stop : Interpreter → Interpreter → Prop}

theorem tracks_store {v : Variable} {x : Int16}
    (h : ∀ i j, pre i j → (i.memory.Layout ∧ j.memory.Layout) ∧
      P (i.withMemory (i.memory.stored v x)) (j.withMemory (j.memory.stored v x))) :
    Tracks R exact pre (fun _ => P) stop (onMemory (Memory.store v x) : Act σ Unit)
      (onMemory (Memory.store v x) : Act τ Unit) := by
  refine tracks_onMemory (.store v x) fun i j hp => ?_
  obtain ⟨⟨hm, hm'⟩, hmid⟩ := h i j hp
  exact ⟨(), _, _, Memory.store_eq v x hm, Memory.store_eq v x hm', hmid⟩

theorem tracks_clearStack
    (h : ∀ i j, pre i j → P (i.withMemory { i.memory with stackTop := i.memory.size })
      (j.withMemory { j.memory with stackTop := j.memory.size })) :
    Tracks R exact pre (fun _ => P) stop (onMemory Memory.clearStack : Act σ Unit)
      (onMemory Memory.clearStack : Act τ Unit) :=
  tracks_onMemory .clearStack fun i j hp => ⟨(), _, _, rfl, rfl, h i j hp⟩

theorem tracks_atLine {f : Interpreter → Option Nat} (hf : ∀ i j, pre i j → f j = f i)
    (ht : ∀ i j, pre i j → Coupled C exact i j) :
    Tracks R exact pre (fun _ => Coupled C exact) stop
      (change fun i => { i with currentLine := f i } : Act σ Unit)
      (change fun i => { i with currentLine := f i } : Act τ Unit) := by
  refine tracks_change (f := fun i => { i with currentLine := f i }) (fun _ => .refl _)
    (fun _ => rfl) (fun _ => rfl) fun i j hp => ?_
  rw [hf i j hp]
  exact (ht i j hp).atLine _

theorem tracks_resume {line : Option Nat} {pos : Nat}
    (h : ∀ i j, pre i j → Coupled C exact i j ∧ C.Shares line pos) :
    Tracks R exact pre (fun _ i j => Abreast C exact i j .proceed) stop
      (resume line pos : Act σ Unit)
      (resume line pos : Act τ Unit) := by
  refine tracks_change (f := fun i => { i with currentLine := line, textPos := pos })
    (fun _ => .refl _) (fun _ => rfl) (fun _ => rfl)
    fun i j hp => ?_
  obtain ⟨hcoupled, hpos⟩ := h i j hp
  exact ⟨hcoupled.atPlace line pos, rfl, hpos⟩

theorem tracks_notePopped (frame : Option Frame) :
    Tracks R exact pre (fun _ => pre) stop (notePopped frame : Act σ Unit)
      (notePopped frame : Act τ Unit) := by
  cases frame with
  | none => exact tracks_pure fun _ _ h => h
  | some frame => exact tracks_note _ _

theorem tracks_jump (number : UInt16)
    (h : ∀ i j, pre i j → Coupled C exact i j ∧ ∃ frames, i.memory.Sound l frames) :
    Tracks R exact pre (fun phase i j => Abreast C exact i j phase) stop (jump number : Act σ Phase)
      (jump number : Act τ Phase) := by
  refine (tracks_lookIn fun i j hp => ?_).bind fun address =>
    (tracks_atLine (fun _ _ _ => rfl) fun i j hp => (h i j hp.1).1).bind fun _ =>
      tracks_pure fun _ _ h => h
  obtain ⟨hcoupled, frames, hs⟩ := h i j hp
  have hs' := C.sound hcoupled.memory hs
  exact ⟨_, Memory.findLine_eq hs.layout hs.holds number, Memory.findLine_eq hs'.layout
    hs'.holds number⟩

end

/-- The same frame is pushed, or there is room for it in neither. -/
theorem tracks_pushFrame {pre : Interpreter → Interpreter → Prop} {frame : Frame}
    (h : ∀ i j, pre i j → InStep C exact l frames i j ∧ frame.Savable) :
    Tracks R exact pre (fun _ i j => Abreast C exact i j .proceed ∧
      i.memory.Sound l (frame :: frames))
      (InStep C exact l frames) (pushFrame frame : Act σ Unit) (pushFrame frame : Act τ Unit) := by
  refine ⟨(Drifts.onMemory (.pushFrame frame)).bind fun _ => .note _, fun s t hR hp _ => ?_⟩
  obtain ⟨hstep, hsavable⟩ := h _ _ hp
  obtain ⟨hm, hm'⟩ := hstep.layouts
  have hfull := C.full_iff hstep.memory hm frame.size
  by_cases hroom : s.interpreter.memory.stackTop < s.interpreter.memory.stackLimit + frame.size
  · have hrun := onMemory_of_error (s := s) (Memory.pushFrame_full hroom)
    have hrun' := onMemory_of_error (s := t) (Memory.pushFrame_full (hfull.2 hroom))
    exact .of_error (bind_of_error hrun) (bind_of_error hrun') ⟨hR, hstep⟩
  · have hpushed := onMemory_of_ok (s := s) (Memory.pushFrame_eq hroom hm.top_le)
    have hpushed' := onMemory_of_ok (s := t) (Memory.pushFrame_eq (mt hfull.1 hroom) hm'.top_le)
    refine .of_ok (bind_of_ok hpushed) (bind_of_ok hpushed')
      ⟨hR, ⟨?_, hstep.textPos_eq, hstep.shares⟩, ?_⟩
    · exact hstep.toCoupled.withMemory (f := (·.pushed frame)) (g := (·.pushed frame))
        (C.pushed hstep.memory hm hsavable hroom) fun _ => rfl
    · exact hstep.running.toSound.pushed hsavable hroom

def FoundAlike (found found' : Option (Nat × Frame)) : Prop :=
  found'.map Prod.snd = found.map Prod.snd

/-- Either nothing is found in both or the same frame, though not at the same address. -/
theorem FoundAlike.exists_frame {found found' : Option (Nat × Frame)}
    (h : FoundAlike found found') : found = none ∧ found' = none ∨
    ∃ frame address address', found = some (address, frame) ∧ found' = some (address', frame) := by
  rcases found with _ | ⟨address, frame⟩
  · exact Or.inl ⟨rfl, Option.map_eq_none_iff.1 h⟩
  · obtain ⟨⟨address', _⟩, hfound', rfl⟩ := Option.map_eq_some_iff.1 h
    exact Or.inr ⟨_, address, address', rfl, hfound'⟩

theorem tracks_notFound {pre : Interpreter → Interpreter → Prop} (why : Diagnostic)
    (h : ∀ i j, pre i j → InStep C exact l frames i j) : Tracks R exact pre
    (fun phase i j => Abreast C exact i j phase) (InStep C exact l frames)
    (look (·.textPos) >>= fun pos => fail (.impossible pos why) : Act σ Phase)
    (look (·.textPos) >>= fun pos => fail (.impossible pos why) : Act τ Phase) :=
  (tracks_look fun i j hp => (h i j hp).textPos_eq).bind fun _ =>
    tracks_fail rfl fun i j hp => h i j hp.1

def FoundAt (C : Coupling) (exact : Prop) (l : Listing) (frame : Frame) (address address' : Nat)
    (i j : Interpreter) :
    Prop :=
  ∃ before after, InStep C exact l (before ++ frame :: after) i j ∧
    address = i.memory.stackTop + depth before ∧
    address' = j.memory.stackTop + depth before

section
variable {frame : Frame} {address address' : Nat} {i j : Interpreter}

theorem foundAt_gosub (h : InStep C exact l frames i j)
    (hf : i.memory.findGosub = some (address, frame))
    (hf' : j.memory.findGosub = some (address', frame)) :
    FoundAt C exact l frame address address' i j := by
  obtain ⟨before, after, rfl, rfl, hgosub, hloops⟩ := h.running.stack.findGosub_eq_some hf
  rw [h.sound'.stack.findGosub_eq hloops hgosub] at hf'
  cases hf'
  exact ⟨before, after, h, rfl, rfl⟩

theorem foundAt_loop {v : Option Variable} (h : InStep C exact l frames i j)
    (hf : i.memory.findLoop v = some (address, frame))
    (hf' : j.memory.findLoop v = some (address', frame)) :
    FoundAt C exact l frame address address' i j := by
  obtain ⟨before, after, rfl, rfl, hover, hothers⟩ := h.running.stack.findLoop_eq_some hf
  rw [h.sound'.stack.findLoop_eq hothers hover] at hf'
  cases hf'
  exact ⟨before, after, h, rfl, rfl⟩

/-- Storing a variable leaves the stacks as they are. -/
theorem FoundAt.stored (h : FoundAt C exact l frame address address' i j) (v : Variable)
    (x : Int16) : FoundAt C exact l frame address address' (i.withMemory (i.memory.stored v x))
      (j.withMemory (j.memory.stored v x)) := by
  obtain ⟨before, after, hstep, rfl, rfl⟩ := h
  exact ⟨before, after, hstep.stored v x, rfl, rfl⟩

end

section
variable {pre stop : Interpreter → Interpreter → Prop} {frame : Frame} {address address' : Nat}
  (h : ∀ i j, pre i j → FoundAt C exact l frame address address' i j)
include h

/-- The frame that has been found is taken out, and both continue where it says. -/
theorem tracks_takeOut : Tracks R exact pre
    (fun _ i j => Coupled C exact i j ∧ C.Shares frame.line frame.pos) stop
    (onMemory (Memory.removeFrame address) : Act σ (Option Frame))
    (onMemory (Memory.removeFrame address') : Act τ (Option Frame)) := by
  refine tracks_onMemory (.removeFrame address) fun i j hp => ?_
  obtain ⟨before, after, hstep, rfl, rfl⟩ := h i j hp
  refine ⟨_, _, _, Memory.removeFrame_eq hstep.running.stack, Memory.removeFrame_eq
    hstep.sound'.stack, ?_, hstep.continues _ (List.mem_append_right _ List.mem_cons_self)⟩
  exact hstep.toCoupled.withMemory
    (f := fun m => m.removed (i.memory.stackTop + depth before) frame)
    (g := fun m => m.removed (j.memory.stackTop + depth before) frame)
    (C.removed hstep.memory hstep.running.toSound) fun he => by rw [he]

/-- The frames above the one that has been found are dropped, and both continue where it says. -/
theorem tracks_goBackTo : Tracks R exact pre
    (fun _ i j => Coupled C exact i j ∧ C.Shares frame.line frame.pos) stop
    (onMemory (Memory.unwindTo address) : Act σ Unit)
      (onMemory (Memory.unwindTo address') : Act τ Unit) := by
  refine tracks_onMemory (.unwindTo address) fun i j hp => ?_
  obtain ⟨before, after, hstep, rfl, rfl⟩ := h i j hp
  refine ⟨(), _, _, rfl, rfl, ?_, hstep.continues _ (List.mem_append_right _ List.mem_cons_self)⟩
  exact hstep.toCoupled.withMemory (f := fun m =>
    { m with stackTop := i.memory.stackTop + depth before })
    (g := fun m => { m with stackTop := j.memory.stackTop + depth before })
    (C.unwound hstep.memory hstep.running.toSound) fun he => by rw [he]

/-- The frame that has been found is dropped with those above it. -/
theorem tracks_drop : Tracks R exact pre
    (fun _ i j => Abreast C exact i j .proceed) stop
    (onMemory (Memory.unwindPast address) : Act σ (Option Frame))
    (onMemory (Memory.unwindPast address') : Act τ (Option Frame)) := by
  refine tracks_onMemory (.unwindPast address) fun i j hp => ?_
  obtain ⟨before, after, hstep, rfl, rfl⟩ := h i j hp
  refine ⟨_, _, _, Memory.unwindPast_eq hstep.running.stack, Memory.unwindPast_eq
    hstep.sound'.stack, ?_,
    hstep.textPos_eq, hstep.shares⟩
  have hsound := hstep.running.toSound
  rw [List.append_cons] at hsound
  have hunwound := C.unwound hstep.memory hsound
  rw [depth_append, ← Nat.add_assoc, ← Nat.add_assoc] at hunwound
  exact hstep.toCoupled.withMemory (f := fun m =>
    { m with stackTop := i.memory.stackTop + depth before + frame.size })
    (g := fun m => { m with stackTop := j.memory.stackTop + depth before + frame.size })
      hunwound fun he => by rw [he]

end

section
variable [Host σ] [Host τ] (hR : Mirrors R)
include hR

section
variable {pre : Interpreter → Interpreter → Prop} {stop : Interpreter → Interpreter → Prop}
  (hs : ∀ i j, pre i j → stop i j)
include hs

theorem tracks_writeByte (b : UInt8) :
    Tracks R exact pre (fun _ => pre) stop (writeByte b : Act σ Unit) (writeByte b : Act τ Unit) :=
  tracks_onHost (hR.write b) hs

theorem tracks_print (bytes : List UInt8) :
    Tracks R exact pre (fun _ => pre) stop (print bytes : Act σ Unit)
    (print bytes : Act τ Unit) := by
  induction bytes with
  | nil => exact tracks_pure fun _ _ h => h
  | cons b rest ih => exact (tracks_writeByte hR hs b).bind fun _ => ih

theorem tracks_newline :
    Tracks R exact pre (fun _ => pre) stop (newline : Act σ Unit) (newline : Act τ Unit) :=
  tracks_writeByte hR hs _

theorem tracks_printLine (line : List UInt8) :
    Tracks R exact pre (fun _ => pre) stop (printLine line : Act σ Unit)
      (printLine line : Act τ Unit) :=
  (tracks_print hR hs line).bind fun _ => tracks_newline hR hs

theorem tracks_printFree (hm : ∀ i j, pre i j → i.memory.Layout ∧ j.memory.free = i.memory.free) :
    Tracks R exact pre (fun _ => pre) stop (printFree : Act σ Unit) (printFree : Act τ Unit) := by
  refine (tracks_lookIn fun i j h => ?_).bind fun free =>
    ((tracks_print hR (fun i j h => hs i j h.1) _).bind fun _ =>
    tracks_printLine hR (fun i j h => hs i j h.1) _).mono (fun _ _ h => h) (fun _ _ _ h => h.1)
      fun _ _ h => h
  obtain ⟨hlayout, hfree⟩ := hm i j h
  exact ⟨_, hlayout.free_eq, hfree.trans hlayout.free_eq⟩

theorem tracks_printLines (lines : List Line) :
    Tracks R exact pre (fun _ => pre) stop (printLines lines : Act σ Unit)
      (printLines lines : Act τ Unit) := by
  induction lines with
  | nil => exact tracks_pure fun _ _ h => h
  | cons line rest ih => exact (tracks_printLine hR hs _).bind fun _ => ih

end

end
end Session
end LineBasic
