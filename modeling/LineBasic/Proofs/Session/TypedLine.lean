import LineBasic.Proofs.Session.Editing
import LineBasic.Proofs.Session.Lockstep
import LineBasic.Proofs.Session.Numbered

namespace LineBasic
variable {σ τ ι : Type}

namespace Memory
variable {m : Memory} {front : List UInt8}

def begun (m : Memory) (front : List UInt8) : Memory :=
  { m with ram := overwrite m.ram m.entryStart front }

theorem typed_begun (m : Memory) (front : List UInt8) (b : UInt8) :
    (m.begun front).typed (m.entryStart + front.length) b = m.begun (front ++ [b]) := by
  rw [typed, begun, begun, overwrite_append]

theorem strikes_begun {room : Nat} {rest : List UInt8} (htext : ∀ b ∈ rest, Byte.IsText b)
    (m : Memory) (front : List UInt8) :
    (m.begun front).strikes room front rest = m.begun
    (front ++ rest.take (room - front.length)) := by
  induction rest generalizing front with
  | nil =>
    rw [List.take_nil, List.append_nil]
    rfl
  | cons b rest ih =>
    obtain ⟨hb, htext⟩ := List.forall_mem_cons.1 htext
    rw [strikes]
    -- What is typed beyond the room is dropped.
    by_cases hroom : front.length < room
    · have hleft : room - front.length = room - (front ++ [b]).length + 1 := by
        rw [List.length_append, List.length_singleton]
        omega
      have hstruck : (m.begun front).struck room front b = m.begun (front ++ [b]) :=
        (struck_of_room hb hroom).trans (typed_begun m front b)
      rw [hstruck, Editor.strike_of_room hb hroom, ih htext, hleft, List.take_succ_cons,
        List.append_assoc,
        List.singleton_append]
    · have hfull := Nat.not_lt.1 hroom
      rw [struck_of_not fun h => hroom h.2, Editor.strike_of_full hb hfull, ih htext,
        Nat.sub_eq_zero_of_le hfull,
        List.take_zero, List.take_zero]

/-- Typing a text places as much of it as there is room for. -/
theorem keyed_of_text {room : Nat} {line : List UInt8} (htext : ∀ b ∈ line, Byte.IsText b)
    (m : Memory) :
    m.keyed room line = m.placed (line.take room) := by
  have hstrikes : m.strikes room [] line = m.begun (line.take room) := strikes_begun htext m []
  have hedit : Editor.edit room [] line = line.take room := Editor.edit_of_text htext []
  rw [keyed, hstrikes, hedit]
  exact typed_begun m (line.take room) Byte.marker

end Memory

theorem Interpreter.entryEnd_eq {i : Interpreter} (hm : i.memory.Layout)
    (hd : i.directText = none) :
    i.entryEnd = i.memory.entryStart + i.memory.entryRoom := by
  have hreserve := hm.reserve
  rw [Memory.entryRoom_eq hm, entryEnd, hd]
  simp only [Memory.entryStart, Memory.entryHeadroom, Session.maxEntryLength]
  omega

theorem Interpreter.room_eq {i : Interpreter} (hm : i.memory.Layout) (hd : i.directText = none) :
    i.room = i.memory.entryRoom := by
  rw [room, entryEnd_eq hm hd, Nat.add_sub_cancel_left]

def Interpreter.given (i : Interpreter) (line : List UInt8) : Interpreter :=
  { i with memory := i.memory.placed line, directText := none }

namespace Session

/-- What is written while a line is typed: the bytes that have room for them are echoed, the bell
sounds for each of the others, and the end of the line is echoed. -/
def typingEcho (echo : Bool) (room : Nat) (line : List UInt8) : List UInt8 :=
  (if echo then line.take room else []) ++
    (List.replicate (line.length - room) Byte.bell ++ if echo then [Byte.marker] else [])

theorem typingEcho_nil (echo : Bool) (room : Nat) :
    typingEcho echo room [] = if echo then [Byte.marker] else [] := by
  simp [typingEcho]

theorem typingEcho_full (echo : Bool) (b : UInt8) (rest : List UInt8) :
    typingEcho echo 0 (b :: rest) = [Byte.bell] ++ typingEcho echo 0 rest := by
  cases echo with
  | true => rfl
  | false => rfl

theorem typingEcho_room (echo : Bool) (room : Nat) (b : UInt8) (rest : List UInt8) :
    typingEcho echo (room + 1) (b :: rest) = (if echo then [b] else []) ++
    typingEcho echo room rest := by
  cases echo with
  | true => simp [typingEcho]
  | false => simp [typingEcho]

theorem answers_of_text {rest : List UInt8} (htext : ∀ b ∈ rest, Byte.IsText b) (echo : Bool)
    (room : Nat) (front : List UInt8) :
    (Editor.answers echo room front rest ++ if echo then [Byte.marker] else []) =
      typingEcho echo (room - front.length) rest := by
  induction rest generalizing front with
  | nil => rw [typingEcho_nil, Editor.answers, List.nil_append]
  | cons b rest ih =>
    obtain ⟨hb, htext⟩ := List.forall_mem_cons.1 htext
    rw [Editor.answers, List.append_assoc, ih htext]
    by_cases hroom : front.length < room
    · have hleft : room - front.length = room - (front ++ [b]).length + 1 := by
        rw [List.length_append, List.length_singleton]
        omega
      rw [Editor.answer_of_room echo hb hroom, Editor.strike_of_room hb hroom, hleft,
        typingEcho_room]
    · have hfull := Nat.not_lt.1 hroom
      rw [Editor.answer_of_full echo hb hfull, Editor.strike_of_full hb hfull,
        Nat.sub_eq_zero_of_le hfull,
        typingEcho_full]

/-- Of a text what has room is echoed, and the bell sounds for the rest. -/
theorem echoed_of_text {line : List UInt8} (htext : ∀ b ∈ line, Byte.IsText b) (echo : Bool)
    (room : Nat) :
    Editor.echoed echo room line = typingEcho echo room line :=
  answers_of_text htext echo room []

variable [Host σ]

/-- At the prompt, typing a text and the return key leads to where the line is taken. -/
theorem prompt_typing {input : σ → ι} (hi : Deaf input) {after : ι} (steps : Nat)
    {line : List UInt8} (htext : ∀ b ∈ line, Byte.IsText b) {s : Session (Recorded σ)}
    (hm : s.interpreter.memory.Layout)
    (hk : Supplies input after (line ++ [Byte.carriageReturn]) s.host.host) :
    ∃ host, input host = after ∧
      (step .prompt >>= drive Phase.awaitsCommand (steps + line.length + 2)) s =
        (accept >>= drive Phase.awaitsCommand steps) { s with
          interpreter := s.interpreter.given (line.take s.interpreter.memory.entryRoom)
          host := ⟨host, s.host.written ++
            ([Purpose.command.sign] ++ typingEcho s.interpreter.echo
              s.interpreter.memory.entryRoom line)⟩ } := by
  obtain ⟨i, ⟨host, written⟩, journal⟩ := s
  let strokes : Keystrokes := ⟨line, Byte.carriageReturn, fun b hb => (htext b hb).not_endsLine,
    Or.inl rfl⟩
  obtain ⟨done, hdone, htyping⟩ := drive_asked hi after .enter .command strokes
    (s := ⟨{ i with directText := none }, ⟨host, written⟩, journal⟩) hm hk
  have hroom : Interpreter.room { i with directText := none } = i.memory.entryRoom :=
    Interpreter.room_eq (i := { i with directText := none }) hm rfl
  have hprompt : step .prompt (Session.mk i (Recorded.mk host written) journal) =
      .ok (.ask .command) ⟨{ i with directText := none }, ⟨host, written⟩, journal⟩ := rfl
  have htyping := htyping steps
  rw [hroom, echoed_of_text htext] at htyping
  refine ⟨done, hdone, (bind_of_ok hprompt).trans (htyping.trans ?_)⟩
  rw [show (Interpreter.memory { i with directText := none }).keyed i.memory.entryRoom
    strokes.keys = _ from
    Memory.keyed_of_text htext i.memory]
  rfl

theorem enter_eq {s : Session σ} (hm : s.interpreter.memory.Layout) (steps : Nat)
    (line : List UInt8) :
    enter steps line s = (accept >>= drive Phase.awaitsCommand steps)
      { s with interpreter := s.interpreter.given (s.interpreter.memory.cutLine line) } :=
  bind_of_eq (submit_eq line hm)

end Session

namespace Interpreter
variable {exact : Prop} {l : Listing} {frames : List Frame} {i : Interpreter} {phase : Phase}

theorem Twin.refl (exact : Prop) (i : Interpreter) : Twin exact 0 i i :=
  ⟨.refl (Nat.zero_le _), rfl, rfl, rfl, rfl, fun _ => rfl⟩

theorem AtPar.of_ready (h : i.Ready l frames phase) : AtPar exact phase i i := by
  have hself := Twin.refl exact i
  have hshares (pos : Nat) : (Coupling.twin 0).Shares i.currentLine pos := fun _ => Nat.zero_le _
  refine ⟨0, l, frames, h, ?_, fun _ _ _ => Nat.zero_le _⟩
  have hawaits (purpose : Purpose) : (Coupling.twin 0).Awaits i.currentLine purpose := by
    cases purpose with
    | command => exact trivial
    | reply v resume => exact hshares resume
  cases phase with
  | cold | restart | prompt | line | bye => exact hself
  | direct | poll | execute | proceed | nextLine => exact ⟨hself, rfl, hshares _⟩
  | ask purpose => exact ⟨hself, hawaits purpose⟩
  | edit purpose pos => exact ⟨hself, hawaits purpose, fun _ _ _ => rfl, h.2⟩

theorem AtPar.same {j : Interpreter} (h : AtPar True phase i j) : j = i := by
  obtain ⟨floor, l, frames, hlevel⟩ := h
  exact hlevel.coupled.same trivial

end Interpreter

namespace Session
variable [Host σ] [Host τ]

open Interpreter (AtPar Twin TypedAlike)

theorem tracks_accept_again {R : σ → τ → Prop} (hR : Mirrors R) : Tracks R True
    (fun i j => j = i ∧ ∃ l frames line, i.memory.Sane l frames ∧ i.memory.Typed line)
      (fun phase i j => AtPar True phase i j)
    (AtPar True .prompt) (accept : Act σ Phase) (accept : Act τ Phase) := by
  refine ⟨drifts_accept, fun s t hhosts hp _ => ?_⟩
  obtain ⟨he, l, frames, line, hs, ht⟩ := hp
  have htyped : TypedAlike (.twin 0) True line s.interpreter t.interpreter := by
    rw [he]
    exact ⟨Twin.refl True s.interpreter, ht, ht⟩
  have hpairs := (tracks_accept hR).pairs s t hhosts ⟨line, htyped, hs.toSound⟩ (Or.inl trivial)
  refine (hpairs.and_ends (accept_ends hs ht)).mono (fun phase s' t' hr => ?_) fun e s' t' hr => ?_
  · obtain ⟨⟨hhosts', floor', -, habreast⟩, -, frames', hready, -⟩ := hr
    refine ⟨hhosts', ?_⟩
    rw [habreast.coupled.same trivial]
    exact AtPar.of_ready hready
  · obtain ⟨⟨hhosts', floor', -, habreast⟩, -, frames', hsane, -⟩ := hr
    refine ⟨hhosts', ?_⟩
    rw [habreast.coupled.same trivial]
    exact AtPar.of_ready (show s'.interpreter.Ready _ frames' .prompt from hsane)

/-- Taking the same line from the same state has the same outcome. -/
theorem tracks_take {R : σ → τ → Prop} (hR : Mirrors R) (steps : Nat) : Tracks R True
    (fun i j => j = i ∧ ∃ l frames line, i.memory.Sane l frames ∧ i.memory.Typed line)
      (fun phase i j => AtPar True phase i j)
    (AtPar True .prompt) (accept >>= drive Phase.awaitsCommand steps : Act σ Phase)
    (accept >>= drive Phase.awaitsCommand steps : Act τ Phase) :=
  (tracks_accept_again hR).bind fun phase => tracks_drive hR Phase.awaitsCommand steps phase

/-- The second session is in the very state of the first, with the same input before it; this was
written in it before all that was written in the first. -/
structure SameAfter (input : σ → ι) (before : List UInt8) (s t : Session (Recorded σ)) : Prop where
  interpreter_eq : t.interpreter = s.interpreter
  input_eq : input t.host.host = input s.host.host
  written_eq : t.host.written = before ++ s.host.written

omit [Host σ] in
theorem SameAfter.of_beside {input : σ → ι} {before : List UInt8} {s t : Session (Recorded σ)}
    (hR : Recorded.Beside (fun host host' => input host = input host') [] before s.host t.host)
    (hi : t.interpreter = s.interpreter) : SameAfter input before s t := by
  obtain ⟨hin, out, hw, hw'⟩ := hR
  exact ⟨hi, hin.symm, by rw [hw', hw, List.nil_append]⟩

end Session

/-- Entering a text is the same as typing it at the prompt with the return key after it: what is
executed has the same outcome and leaves the same state, and only the sign of the prompt, the echo
and the bells are written besides. -/
theorem History.enter_typed [Host σ] [Host τ] {settings : Settings} {first : σ}
    {threshold : Option Severity} {past : List (Moment σ)} {M : Moment σ}
    (h : History (Session.start settings first threshold) past M) {input : τ → ι} (hi : Deaf input)
    {line : List UInt8} (htext : ∀ b ∈ line, Byte.IsText b) (host typist : τ)
    (hk : Supplies input (input host) (line ++ [Byte.carriageReturn]) typist) (steps : Nat) :
    Pairs (Session.enter steps line (M.session.on (Recorded.mk host [])))
      ((Session.step .prompt >>= Session.drive Phase.awaitsCommand (steps + line.length + 2))
        (M.session.on (Recorded.mk typist [])))
      (fun _ => Session.SameAfter input (Purpose.command.sign ::
        Session.typingEcho M.session.interpreter.echo M.memory.entryRoom line))
      fun _ => Session.SameAfter input (Purpose.command.sign ::
        Session.typingEcho M.session.interpreter.echo M.memory.entryRoom line) := by
  obtain ⟨l, frames, hready⟩ := h.exists_ready
  have hs : M.session.interpreter.memory.Sane l frames := hready.sane
  have hm := hs.layout
  have hplaced := hs.onlyGap (Memory.onlyGap_placed line hm)
  have hcut : M.session.interpreter.memory.cutLine line = line.take M.memory.entryRoom :=
    Memory.cutLine_eq _ fun b hb => not_or.1 (htext b hb).unedited.1
  have htyped := Memory.typed_placed line hm
  obtain ⟨done, hdone, htyping⟩ := Session.prompt_typing (s := M.session.on (Recorded.mk typist []))
    hi steps htext hm hk
  have henter := Session.enter_eq (s := M.session.on (Recorded.mk host [])) hm steps line
  rw [show (M.session.on (Recorded.mk host [])).interpreter.memory.cutLine line =
    _ from hcut] at henter
  rw [hcut] at htyped hplaced
  rw [henter, htyping]
  -- From here on both take the same line, and they differ in what has been written so far.
  have hsame := (Session.tracks_take (Recorded.mirrors_beside [] (Purpose.command.sign ::
    Session.typingEcho M.session.interpreter.echo M.memory.entryRoom line) hi.mirrors) steps).pairs
    { M.session.on (Recorded.mk host []) with interpreter := M.session.interpreter.given (line.take
      M.memory.entryRoom) }
    { M.session.on (Recorded.mk typist []) with
      interpreter := M.session.interpreter.given (line.take M.memory.entryRoom)
      host := ⟨done, _⟩ }
    ⟨hdone.symm, [], rfl, (List.append_nil _).symm⟩ ⟨rfl, l, frames, _, hplaced, htyped⟩
      (Or.inl trivial)
  refine hsame.mono (fun phase s t hr => ?_) fun e s t hr => ?_
  · exact .of_beside hr.1 hr.2.same
  · exact .of_beside hr.1 hr.2.same

/-- A statement typed into a fresh session is executed as if it had been entered. -/
theorem History.enter_typed_print : ∃ s : Session Script,
    Pairs (Session.enter 6 (ascii "PRINT 7") (s.on (Recorded.mk {} [])))
      ((Session.step .prompt >>= Session.drive Phase.awaitsCommand 15)
        (s.on (Recorded.mk { input := ascii "PRINT 7\r" } [])))
      (fun _ => Session.SameAfter Script.input (ascii ">PRINT 7\n"))
      fun _ => Session.SameAfter Script.input (ascii ">PRINT 7\n") := by
  obtain ⟨s, hs, hecho⟩ : ∃ s, History (Session.start { ramSize := 1024 } ({} : Script) none)
    [] (.idle s) ∧
      Purpose.command.sign :: Session.typingEcho s.interpreter.echo s.interpreter.memory.entryRoom
        (ascii "PRINT 7") =
        ascii ">PRINT 7\n" :=
    ⟨_, .start, by decide⟩
  have htyped : ascii "PRINT 7" ++ [Byte.carriageReturn] ++ [] = ascii "PRINT 7\r" := by decide
  have h := hs.enter_typed Script.deaf (by decide : ∀ b ∈ ascii "PRINT 7", Byte.IsText b) {} _
    (Script.supplies _ [] #[]) 6
  rw [htyped] at h
  exact ⟨s, hecho ▸ h⟩

end LineBasic
