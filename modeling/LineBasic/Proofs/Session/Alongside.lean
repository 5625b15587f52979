import LineBasic.Proofs.Session.OneLine
import LineBasic.Proofs.Session.Statements

namespace LineBasic

def Phase.Moves : Phase → Prop
  | .cold | .edit .. => False
  | _ => True

namespace Interpreter

structure Level (C : Coupling) (exact : Prop) (l : Listing) (frames : List Frame) (phase : Phase)
    (i j : Interpreter) :
    Prop where
  ready : i.Ready l frames phase
  abreast : Abreast C exact i j phase
  continues : C.Continues frames

variable {C : Coupling} {exact : Prop} {l l' : Listing} {frames frames' : List Frame}
  {phase phase' : Phase}
  {i j i' j' : Interpreter}

theorem Abreast.coupled (h : Abreast C exact i j phase) : Coupled C exact i j := by
  cases phase with
  | cold | restart | prompt | line | bye => exact h
  | direct | poll | execute | proceed | nextLine => exact h.1
  | ask purpose => exact h.1
  | edit purpose pos => exact h.1

namespace Level

theorem coupled (h : Level C exact l frames phase i j) : Coupled C exact i j :=
  h.abreast.coupled

theorem layouts (h : Level C exact l frames phase i j) : i.memory.Layout ∧ j.memory.Layout :=
  h.coupled.layouts h.ready.sane.layout

theorem inStep (h : Level C exact l frames phase i j)
    (hp : phase ∈ [.direct, .poll, .execute, .proceed, .nextLine]) :
    InStep C exact l frames i j := by
  obtain ⟨hready, habreast, hcontinues⟩ := h
  simp only [List.mem_cons, List.not_mem_nil, or_false] at hp
  rcases hp with rfl | rfl | rfl | rfl | rfl
  all_goals
    obtain ⟨hcoupled, hpos, hshares⟩ := habreast
    exact ⟨hcoupled, hready, hpos, hshares, hcontinues⟩

/-- Where the frames continue that a step leaves, the rest of the line is the same. -/
theorem continues_next (h : Level C exact l frames phase i j)
    (hs : Successor phase i l frames phase' i') :
    ∃ l' frames', i'.Ready l' frames' phase' ∧ C.Continues frames' := by
  obtain ⟨l', frames', hready, hfollows, -⟩ := hs
  refine ⟨l', frames', hready, ?_⟩
  obtain rfl | ⟨-, hsub | ⟨frame, ⟨rfl, hpush⟩, rfl⟩⟩ := hfollows.kept
  · exact C.continues_nil
  · exact fun frame hm => h.continues frame (hsub.subset hm)
  · -- The frame that was pushed continues where the statement had been read to.
    obtain ⟨k, m, hread, hline, hpos, -⟩ := hpush
    obtain ⟨-, -, hshares⟩ := h.abreast
    intro f hm
    rcases List.mem_cons.1 hm with rfl | hm
    · rw [hline, hpos, hread.currentLine_eq]
      exact C.shares_mono hshares hread.le
    · exact h.continues f hm

theorem next (h : Level C exact l frames phase i j) (hs : Successor phase i l frames phase' i')
    (ha : Abreast C exact i' j' phase') : ∃ l' frames', Level C exact l' frames' phase' i' j' := by
  obtain ⟨l', frames', hready, hcontinues⟩ := h.continues_next hs
  exact ⟨l', frames', hready, ha, hcontinues⟩

end Level

theorem Coupled.atDirect (h : Coupled C exact i j) {direct : Option Nat}
    (hd : C.Directs direct direct) :
    Coupled C exact { i with directText := direct } { j with directText := direct } :=
  ⟨h.memory, h.currentLine_eq, hd, h.generator_eq, h.echo_eq, fun he => by rw [h.same he]⟩

theorem Coupled.typed (h : Coupled C exact i j) {pos : Nat} (hm : i.memory.Layout)
    (hp : i.memory.Typing pos) (hp' : j.memory.Typing pos) (b : UInt8) :
    Coupled C exact (i.withMemory (i.memory.typed pos b))
    (j.withMemory (j.memory.typed pos b)) := by
  have hlt := hp.lt
  have hlt' := hp'.lt
  exact h.withMemory (f := (·.typed pos b)) (g := (·.typed pos b)) (C.written h.memory hm hp.le
    (by show pos + 1 ≤ _; omega) (by show pos + 1 ≤ _; omega)) fun _ => rfl

def TypedAlike (C : Coupling) (exact : Prop) (line : List UInt8) (i j : Interpreter) : Prop :=
  Coupled C exact i j ∧ i.memory.Typed line ∧ j.memory.Typed line

theorem TypedAlike.folded {line : List UInt8} (h : TypedAlike C exact line i j)
    (hm : i.memory.Layout) :
    Coupled C exact (i.withMemory (i.memory.folded line))
    (j.withMemory (j.memory.folded line)) := by
  obtain ⟨hcoupled, ht, ht'⟩ := h
  have hroom := ht.room
  have hroom' := ht'.room
  have hstart := hcoupled.entryStart_eq
  refine hcoupled.withMemory (f := (·.folded line)) (g := (·.folded line)) ?_ fun _ => rfl
  unfold Memory.folded
  rw [hstart] at hroom' ⊢
  exact C.written hcoupled.memory hm (Nat.le_refl _) (by rw [Case.length_fold]; omega)
    (by rw [Case.length_fold]; omega)

theorem Level.agree_typed {purpose : Purpose} {pos : Nat}
    (h : Level C exact l frames (.edit purpose pos) i j) (b : UInt8) :
    Memory.Agree (i.memory.typed pos b).ram (j.memory.typed pos b).ram
    i.memory.entryStart (pos + 1) := by
  obtain ⟨⟨hasking, htyping⟩, ⟨hcoupled, -, hagree, htyping'⟩, -⟩ := h
  obtain ⟨hm, hm'⟩ := hcoupled.layouts hasking.sane.layout
  have hlt := htyping.lt
  have hlt' := htyping'.lt
  have hv : i.memory.variablesBegin + 52 ≤ i.memory.ram.size := hm.variables_le_size
  have hv' : j.memory.variablesBegin + 52 ≤ j.memory.ram.size := hm'.variables_le_size
  intro k hlo hhi
  show (Memory.overwrite j.memory.ram pos [b])[k]? = (Memory.overwrite i.memory.ram pos [b])[k]?
  rw [Memory.getElem?_overwrite _ _ _ _ (by show pos + 1 ≤ _; omega),
    Memory.getElem?_overwrite _ _ _ _ (by show pos + 1 ≤ _; omega)]
  by_cases hk : k < pos
  · rw [if_neg (by omega), if_neg (by omega)]
    exact hagree k hlo hk
  · rw [if_pos ⟨by omega, hhi⟩, if_pos ⟨by omega, hhi⟩]

theorem Level.typedAlike {purpose : Purpose} {pos : Nat}
    (h : Level C exact l frames (.edit purpose pos) i j) :
    ∃ line, TypedAlike C exact line (i.withMemory (i.memory.typed pos Byte.marker))
      (j.withMemory (j.memory.typed pos Byte.marker)) := by
  obtain ⟨hm, hm'⟩ := h.layouts
  have hagree := h.agree_typed Byte.marker
  obtain ⟨⟨hasking, htyping⟩, ⟨hcoupled, -, -, htyping'⟩, -⟩ := h
  have hend := htyping.endOfLine_typed_le hm
  have hlike := Cursor.like_of_agree (hagree.mono (Nat.le_refl _) (Nat.add_le_add_right hend 1))
  have htyped' := htyping'.typed_marker hm'
  rw [hcoupled.entryStart_eq, hlike.rest_eq] at htyped'
  exact ⟨_, hcoupled.typed hm htyping htyping' _, htyping.typed_marker hm, htyped'⟩

end Interpreter

namespace Session
variable {σ τ α β : Type} {R : σ → τ → Prop} {C : Coupling} {exact : Prop} {l : Listing}
  {frames : List Frame}

open Interpreter (InStep Abreast Coupled Level TypedAlike)

abbrev CarriesAlike (R : σ → τ → Prop) (C : Coupling) (exact : Prop) (l : Listing)
    (frames : List Frame) (act : Act σ Phase) (act' : Act τ Phase) : Prop :=
  Tracks R exact (InStep C exact l frames) (fun phase i j => Abreast C exact i j phase)
    (InStep C exact l frames) act act'

theorem tracks_proceed :
    CarriesAlike R C exact l frames (proceed : Act σ Phase) (proceed : Act τ Phase) := by
  refine .cursor fun c c' hc => ?_
  simp only [hc.rest_eq]
  have hlike := (hc.moveTo (c.rest.dropWhile (· = byte ':'))).skipBlanks
  simp only [hlike.atEndOfLine_eq]
  refine .goTo hlike ((Cursor.moveTo_within _ _).trans (Cursor.skipBlanks_within _))
    (tracks_pure fun i j h => ?_)
  split
  · exact h.1.proceed
  · exact h.1.proceed

theorem tracks_nextLine :
    CarriesAlike R C exact l frames (nextLine : Act σ Phase) (nextLine : Act τ Phase) := by
  refine (tracks_look fun i j h => h.currentLine_eq).bind fun current => ?_
  cases current with
  | none => exact tracks_pure fun _ _ h => h.1.toCoupled
  | some address =>
    refine (tracks_lookIn fun i j h => ?_).bind fun next =>
      (tracks_atLine (fun _ _ _ => rfl) fun _ _ h => h.1.1.toCoupled).bind fun _ =>
        tracks_pure fun _ _ h => h
    obtain ⟨hstep, hc⟩ := h
    obtain ⟨line, hstarts, -, -⟩ : l.Inside i.memory.variablesBegin (some address) i.textPos :=
      hc ▸ hstep.running.inside
    have hs' := hstep.sound'
    have hat : Memory.LineAt i.memory l line address :=
      ⟨hstarts, hstep.running.holds, hstep.running.layout⟩
    have hat' : Memory.LineAt j.memory l line address := ⟨hstarts, hs'.holds, hs'.layout⟩
    exact ⟨_, hat.nextLine_eq, hat'.nextLine_eq⟩

theorem tracks_line {stop : Interpreter → Interpreter → Prop} : Tracks R exact (Coupled C exact)
    (fun phase i j => Abreast C exact i j phase) stop (line : Act σ Phase)
    (line : Act τ Phase) := by
  refine (tracks_look fun i j h => h.currentLine_eq).bind fun current => ?_
  cases current with
  | none => exact tracks_pure fun _ _ h => h.1
  | some address =>
    refine (tracks_look fun i j h => C.programEnd_eq h.1.memory).bind fun programEnd => ?_
    refine tracks_ite (fun _ => ?_) fun _ => tracks_pure fun _ _ h => h.1.1
    refine Tracks.bind (P := fun _ i j => Abreast C exact i j .poll) (tracks_change
      (f := fun i => { i with textPos := Memory.textStart address }) (fun _ => .refl _)
        (fun _ => rfl) (fun _ => rfl)
      fun i j h => ?_) fun _ => tracks_pure fun _ _ h => h
    obtain ⟨⟨hcoupled, hc⟩, -⟩ := h
    refine ⟨hcoupled.atPos _, rfl, ?_⟩
    show C.Shares i.currentLine _
    rw [hc]
    exact C.shares_some _ _

theorem tracks_dropPending {stop : Interpreter → Interpreter → Prop} :
    Tracks R exact (fun i j => Coupled C exact i j ∧ i.memory.Layout)
      (fun _ => Coupled C exact) stop (dropPending : Act σ Unit) (dropPending : Act τ Unit) := by
  refine Tracks.bind (P := fun _ i j => Coupled C exact i j ∧ i.memory.Layout) (tracks_change
    (f := fun i => { i with currentLine := none, directText := none }) (fun _ => .refl _)
      (fun _ => rfl) (fun _ => rfl)
    fun i j h => ?_) fun _ => tracks_clearStack fun i j h => h.1.unstacked h.2
  exact ⟨(h.1.atLine none).atDirect C.directs_none, h.2⟩

theorem tracks_takeReply {v : Variable} {resume : Nat} {stop : Interpreter → Interpreter → Prop} :
    Tracks R exact
    (fun i j => ∃ line, TypedAlike C exact line i j ∧ i.memory.Layout ∧
      C.Shares i.currentLine resume)
    (fun phase i j => Abreast C exact i j phase) stop (takeReply v resume : Act σ Phase)
    (takeReply v resume : Act τ Phase) := by
  refine (tracks_look fun i j h => ?_).bind fun start => ?_
  · obtain ⟨line, ⟨hcoupled, -, -⟩, -⟩ := h
    exact hcoupled.entryStart_eq
  refine Tracks.bind (P := fun _ i j => (Coupled C exact i j ∧ i.memory.Layout ∧
    C.Shares i.currentLine resume) ∧
    Cursor.Like ⟨i.memory.ram, start⟩ ⟨j.memory.ram, start⟩)
      (tracks_onMemory (.foldCase start) fun i j h => ?_)
    fun _ => ?_
  · obtain ⟨⟨line, htyped, hm, hshares⟩, rfl⟩ := h
    have hfolded := htyped.folded hm
    obtain ⟨hcoupled, ht, ht'⟩ := htyped
    obtain ⟨-, hm'⟩ := hcoupled.layouts hm
    have hstart := hcoupled.entryStart_eq
    have hfold' := ht'.foldCase_eq hm'
    rw [hstart] at hfold'
    -- The folded line stands in both buffers.
    have hmarker := Case.marker_notMem_fold ht.marker_notMem
    have hrest := Cursor.rest_of_stands (ht.folded hm).stands hmarker
    have hrest' := Cursor.rest_of_stands (ht'.folded hm').stands hmarker
    have hentry : (j.memory.folded line).entryStart = i.memory.entryStart := hstart
    rw [hentry] at hrest'
    exact ⟨(), _, _, ht.foldCase_eq hm, hfold', ⟨hfolded, (ht.onlyGap_folded hm).layout hm,
      hshares⟩, rfl,
      hrest'.trans hrest.symm⟩
  refine Tracks.bind (P := fun _ i j => (Coupled C exact i j ∧ i.memory.Layout ∧
    C.Shares i.currentLine resume) ∧
    i.cursor.Like j.cursor) (tracks_change (f := fun i => { i with textPos := start })
      (fun _ => .refl _)
    (fun _ => rfl) (fun _ => rfl) fun i j h => ?_) fun _ => ?_
  · obtain ⟨⟨hcoupled, hm, hshares⟩, hlike⟩ := h
    exact ⟨⟨hcoupled.atPos start, hm, hshares⟩, hlike⟩
  refine Tracks.bind (P := fun _ i j => Coupled C exact i j ∧ i.memory.Layout ∧
    C.Shares i.currentLine resume)
    (tracks_evaluate_of (fun i j h => ⟨h.1.1, h.1.2.1, h.2⟩) fun i j h r generator => ?_) fun r =>
      ?_
  · exact ⟨h.1.1.atExpression generator _, h.1.2⟩
  cases r with
  | ok x =>
    refine (tracks_store (P := fun i j => Coupled C exact i j ∧ C.Shares i.currentLine resume)
      fun i j h => ?_).bind fun _ => Tracks.bind (P := fun _ i j => Abreast C exact i j .proceed)
        (tracks_change
        (f := fun i => { i with textPos := resume }) (fun _ => .refl _) (fun _ => rfl)
          (fun _ => rfl)
        fun i j h => ⟨h.1.atPos resume, rfl, h.2⟩) fun _ => tracks_pure fun _ _ h => h
    obtain ⟨hcoupled, hm, hshares⟩ := h
    exact ⟨hcoupled.layouts hm, hcoupled.stored hm v x, hshares⟩
  | error e => exact (tracks_note _ _).bind fun _ => tracks_pure fun _ _ h => ⟨h.1, h.2.2⟩

section
variable [Host σ] [Host τ] (hR : Mirrors R)
include hR

theorem tracks_interrupted {pre stop : Interpreter → Interpreter → Prop}
    (hs : ∀ i j, pre i j → stop i j) :
    Tracks R exact pre (fun _ => pre) stop (interrupted : Act σ Bool)
    (interrupted : Act τ Bool) := by
  refine (tracks_onHost hR.poll hs).bind fun b => ?_
  cases b with
  | true => exact (tracks_onHost hR.read hs).bind fun _ => tracks_pure fun _ _ h => h
  | false => exact tracks_pure fun _ _ h => h

theorem tracks_poll :
    CarriesAlike R C exact l frames (poll : Act σ Phase) (poll : Act τ Phase) := by
  refine (tracks_interrupted hR fun _ _ h => h).bind fun stop => ?_
  cases stop with
  | true =>
    exact (tracks_printLine hR (fun _ _ h => h) _).bind fun _ => tracks_pure fun _ _ h =>
      h.toCoupled
  | false => exact tracks_pure fun _ _ h => h.proceed

theorem tracks_restart : Tracks R exact (fun i j => Coupled C exact i j ∧ i.memory.Layout)
    (fun phase i j => Abreast C exact i j phase) (Coupled C exact) (restart : Act σ Phase)
    (restart : Act τ Phase) :=
  tracks_dropPending.bind fun _ => (tracks_printLine hR (fun _ _ h => h) _).bind fun _ =>
    tracks_pure fun _ _ h => h

/-- What is reported is reported alike: the line in which a statement failed is in both programs. -/
theorem tracks_report (e : Error) : Tracks R exact
    (fun i j => Coupled C exact i j ∧ i.memory.Sound l frames ∧
      ∀ address, i.currentLine = some address → ∃ line, l.StartsAt line address)
    (fun phase i j => Abreast C exact i j phase) (Coupled C exact) (report e : Act σ Phase)
    (report e : Act τ Phase) := by
  refine (tracks_look fun i j h => h.1.currentLine_eq).bind fun current =>
    (tracks_note _ _).bind fun _ => ?_
  have hleave {pre : Interpreter → Interpreter → Prop} (hpre : ∀ i j, pre i j →
    Coupled C exact i j) :
      Tracks R exact pre (fun phase i j => Abreast C exact i j phase) (Coupled C exact)
        (change (fun i => { i with currentLine := none }) >>= fun _ => pure .prompt : Act σ Phase)
        (change (fun i => { i with currentLine := none }) >>= fun _ => pure .prompt :
          Act τ Phase) :=
    (tracks_atLine (fun _ _ _ => rfl) hpre).bind fun _ => tracks_pure fun _ _ h => h
  cases e.category with
  | malformed =>
    have hend {pre : Interpreter → Interpreter → Prop} (hpre : ∀ i j, pre i j →
      Coupled C exact i j) :
        Tracks R exact pre (fun phase i j => Abreast C exact i j phase) (Coupled C exact)
          (newline >>= fun _ => change (fun i => { i with currentLine := none }) >>=
            fun _ => pure .prompt :
            Act σ Phase)
          (newline >>= fun _ => change (fun i => { i with currentLine := none }) >>=
            fun _ => pure .prompt :
            Act τ Phase) :=
      (tracks_newline hR hpre).bind fun _ => hleave hpre
    refine (tracks_print hR (fun _ _ h => h.1.1) _).bind fun _ =>
      (tracks_writeByte hR (fun _ _ h => h.1.1) _).bind fun _ => ?_
    cases current with
    | none => exact hend fun _ _ h => h.1.1
    | some address =>
      refine (tracks_lookIn fun i j h => ?_).bind fun found => ?_
      · obtain ⟨⟨hcoupled, hs, hstarts⟩, hc⟩ := h
        obtain ⟨line, hline⟩ := hstarts address hc
        have hs' := C.sound hcoupled.memory hs
        have hat : Memory.LineAt i.memory l line address := ⟨hline, hs.holds, hs.layout⟩
        have hat' : Memory.LineAt j.memory l line address := ⟨hline, hs'.holds, hs'.layout⟩
        exact ⟨_, hat.lineAt_eq, hat'.lineAt_eq⟩
      · cases found with
        | none => exact hend fun _ _ h => h.1.1.1
        | some line =>
          refine (tracks_print hR (fun _ _ h => h.1.1.1) _).bind fun _ => ?_
          refine (tracks_writeByte hR (fun _ _ h => h.1.1.1) _).bind fun _ => ?_
          refine (tracks_print hR (fun _ _ h => h.1.1.1) _).bind fun _ => ?_
          exact hend fun _ _ h => h.1.1.1
  | impossible =>
    exact (tracks_printLine hR (fun _ _ h => h.1.1) _).bind fun _ => hleave fun _ _ h => h.1.1
  | exhausted =>
    exact (tracks_printLine hR (fun _ _ h => h.1.1) _).bind fun _ => tracks_pure fun _ _ h => h.1.1

theorem tracks_execute : Tracks R exact
    (fun i j => InStep C exact l frames i j ∧ (i.keyword = some .mem → C.Meters))
    (fun phase i j => Abreast C exact i j phase) (Coupled C exact) (execute : Act σ Phase)
      (execute : Act τ Phase) := by
  refine Tracks.bind ((tracks_statement hR).attempt.mono (fun _ _ h => h) (fun _ _ _ h => h)
    fun _ _ h => h.toCoupled)
    fun r => ?_
  cases r with
  | ok phase => exact tracks_pure fun _ _ h => h
  | error e =>
    refine (@tracks_report σ τ R C exact l frames _ _ hR e).mono (fun i j h => ?_)
      (fun _ _ _ h => h) fun _ _ h => h
    have h : InStep C exact l frames i j := h
    refine ⟨h.toCoupled, h.running.toSound, fun address hc => ?_⟩
    obtain ⟨line, hstarts, -⟩ : l.Inside i.memory.variablesBegin (some address) i.textPos :=
      hc ▸ h.running.inside
    exact ⟨line, hstarts⟩

theorem tracks_ask (purpose : Purpose) : Tracks R exact
    (fun i j => Abreast C exact i j (.ask purpose) ∧ i.memory.Layout)
    (fun phase i j => Abreast C exact i j phase) (Coupled C exact) (ask purpose : Act σ Phase)
    (ask purpose : Act τ Phase) := by
  refine (tracks_writeByte hR (fun _ _ h => h.1.1) _).bind fun _ =>
    (tracks_look fun i j h => h.1.1.entryStart_eq).bind fun start => tracks_pure fun i j h => ?_
  obtain ⟨⟨⟨hcoupled, hawaits⟩, hm⟩, rfl⟩ := h
  have hreserve := (hcoupled.layouts hm).2.reserve
  have hstart := hcoupled.entryStart_eq
  refine ⟨hcoupled, hawaits, fun k hlo hhi => absurd hlo (by omega), ?_⟩
  rw [← hstart]
  exact ⟨Nat.le_refl _, by show j.memory.programEnd + 2 + 2 ≤ _; omega, Nat.le_add_right _ _⟩

/-- A step of a phase that moves, from interpreters that are level. What is free is asked for only
if it is the same. -/
theorem tracks_moves {phase : Phase} (hp : phase.Moves) : Tracks R exact
    (fun i j => Level C exact l frames phase i j ∧
      (phase = .execute → i.keyword = some .mem → C.Meters))
    (fun phase' i j => Abreast C exact i j phase') (Coupled C exact) (step phase : Act σ Phase)
    (step phase : Act τ Phase) := by
  cases phase with
  | cold => exact absurd hp id
  | restart =>
    exact (tracks_restart hR).mono (fun _ _ h => ⟨h.1.abreast, h.1.layouts.1⟩) (fun _ _ _ h => h)
      fun _ _ h => h
  | prompt =>
    refine Tracks.bind (P := fun _ => Coupled C exact)
      (tracks_change (f := fun i => { i with directText := none })
      (fun _ => .refl _) (fun _ => rfl) (fun _ => rfl) fun i j h => ?_) fun _ =>
        tracks_pure fun i j h => ⟨h, trivial⟩
    exact h.1.coupled.atDirect C.directs_none
  | direct =>
    have hdirect : CarriesAlike R C exact l frames (step .direct : Act σ Phase)
        (step .direct : Act τ Phase) := by
      refine .cursor fun c c' hc => ?_
      simp only [hc.atEndOfLine_eq]
      refine tracks_pure fun i j h => ?_
      split
      · exact h.1.toCoupled
      · exact h.1.proceed
    exact hdirect.mono (fun _ _ h => h.1.inStep (by decide)) (fun _ _ _ h => h) fun _ _ h =>
      h.toCoupled
  | line => exact tracks_line.mono (fun _ _ h => h.1.abreast) (fun _ _ _ h => h) fun _ _ h => h
  | poll =>
    exact (tracks_poll hR).mono (fun _ _ h => h.1.inStep (by decide)) (fun _ _ _ h => h)
      fun _ _ h => h.toCoupled
  | execute =>
    exact (tracks_execute hR).mono (fun _ _ h => ⟨h.1.inStep (by decide), h.2 rfl⟩)
      (fun _ _ _ h => h) fun _ _ h => h
  | proceed =>
    exact tracks_proceed.mono (fun _ _ h => h.1.inStep (by decide)) (fun _ _ _ h => h) fun _ _ h =>
      h.toCoupled
  | nextLine =>
    exact tracks_nextLine.mono (fun _ _ h => h.1.inStep (by decide)) (fun _ _ _ h => h) fun _ _ h =>
      h.toCoupled
  | ask purpose =>
    exact (tracks_ask hR purpose).mono (fun _ _ h => ⟨h.1.abreast, h.1.layouts.1⟩)
      (fun _ _ _ h => h) fun _ _ h => h
  | edit purpose pos => exact absurd hp id
  | bye => exact tracks_pure fun _ _ h => h.1.coupled

end

section
variable [Host σ]

/-- What is done with a byte that has been typed, where the line must have ended at the limit. -/
def takeByte (purpose : Purpose) (pos start limit : Nat) (echo : Bool) (b : UInt8) :
    Act σ Phase := do
  if b = Byte.carriageReturn ∨ b = Byte.marker then
    if echo then newline
    onMemory (Memory.write pos [Byte.marker])
    takeFor purpose
  else if b = Byte.backspace ∨ b = Byte.delete then
    if start < pos then
      if echo then print [Byte.backspace, Byte.blank, Byte.backspace]
      return .edit purpose (pos - 1)
    else return .edit purpose pos
  else if b < Byte.blank ∧ b ≠ Byte.tab then
    return .edit purpose pos
  else if limit ≤ pos then
    writeByte Byte.bell
    return .edit purpose pos
  else
    onMemory (Memory.write pos [b])
    if echo then writeByte b
    return .edit purpose (pos + 1)

theorem typeByte_eq (purpose : Purpose) (pos : Nat) : (typeByte purpose pos : Act σ Phase) = (do
    let start ← look (·.memory.entryStart)
    let limit ← entryLimit
    let echo ← look (·.echo)
    let b ← readByte
    takeByte purpose pos start limit echo b) := by
  cases purpose with
  | command => rfl
  | reply v resume => rfl

end

section
variable [Host σ] [Host τ] (hR : Mirrors R)
include hR

section
variable {purpose : Purpose} {pos start limit limit' : Nat} {b : UInt8} {echo : Bool}
  {post : Phase → Interpreter → Interpreter → Prop} {stop : Interpreter → Interpreter → Prop}

/-- Level while a line is typed that begins in both at the same place, with a limit for each that
leaves room. -/
def Editing (C : Coupling) (exact : Prop) (l : Listing) (frames : List Frame) (purpose : Purpose)
    (pos start limit limit' : Nat) (i j : Interpreter) : Prop :=
  Level C exact l frames (.edit purpose pos) i j ∧ i.memory.entryStart = start ∧
    limit ≤ i.entryEnd ∧
    limit' ≤ j.entryEnd

omit hR in
omit [Host σ] [Host τ] in
theorem tracks_endOfLine : Tracks R exact (Editing C exact l frames purpose pos start limit limit')
    (fun _ i j => (∃ line, TypedAlike C exact line i j) ∧ i.Asking l frames purpose ∧
      C.Awaits i.currentLine purpose)
    stop (onMemory (Memory.write pos [Byte.marker]) : Act σ Unit)
    (onMemory (Memory.write pos [Byte.marker]) : Act τ Unit) := by
  refine tracks_onMemory (.write pos _) fun i j h => ?_
  obtain ⟨h, -⟩ := h
  obtain ⟨hm, hm'⟩ := h.layouts
  exact ⟨(), _, _, h.ready.2.write_eq hm _, h.abreast.2.2.2.write_eq hm' _, h.typedAlike,
    h.ready.1.typed h.ready.2 Byte.marker, h.abreast.2.1⟩

omit hR in
omit [Host σ] [Host τ] in
theorem tracks_put (hroom : pos < limit') :
    Tracks R exact (Editing C exact l frames purpose pos start limit limit')
      (fun _ i j => Abreast C exact i j (.edit purpose (pos + 1))) stop
      (onMemory (Memory.write pos [b]) : Act σ Unit)
      (onMemory (Memory.write pos [b]) : Act τ Unit) := by
  refine tracks_onMemory (.write pos _) fun i j h => ?_
  obtain ⟨hlevel, -, -, hlimit'⟩ := h
  obtain ⟨hm, hm'⟩ := hlevel.layouts
  obtain ⟨hcoupled, hawaits, -, htyping'⟩ := hlevel.abreast
  obtain ⟨hend, hshort⟩ := j.entryEnd_le
  have hle := htyping'.le
  have hlt := htyping'.lt
  refine ⟨(), _, _, hlevel.ready.2.write_eq hm b, htyping'.write_eq hm' b,
    hcoupled.typed hm hlevel.ready.2 htyping' b, hawaits, hlevel.agree_typed b, ?_, ?_, ?_⟩
  · show j.memory.entryStart ≤ pos + 1
    omega
  · show pos + 1 + 2 ≤ j.memory.variablesBegin
    omega
  · show pos + 1 ≤ j.memory.entryStart + maxEntryLength
    omega

/-- The same byte is typed in both: it has room in both or in neither, and what is taken is taken
alike. -/
theorem tracks_takeByte (hroom : Byte.IsText b → (limit ≤ pos ↔ limit' ≤ pos))
    (hpost : ∀ phase i j, Abreast C exact i j phase → post phase i j)
    (hstop : ∀ i j, Coupled C exact i j → stop i j)
    (htake : Tracks R exact (fun i j => (∃ line, TypedAlike C exact line i j) ∧
      i.Asking l frames purpose ∧ C.Awaits i.currentLine purpose) post stop
      (takeFor purpose : Act σ Phase) (takeFor purpose : Act τ Phase)) :
    Tracks R exact (Editing C exact l frames purpose pos start limit limit') post stop
      (takeByte purpose pos start limit echo b : Act σ Phase)
      (takeByte purpose pos start limit' echo b : Act τ Phase) := by
  have hend (i j : Interpreter) (h : Editing C exact l frames purpose pos start limit limit' i j) :
      stop i j :=
    hstop i j h.1.coupled
  have hsame : Tracks R exact (Editing C exact l frames purpose pos start limit limit') post stop
      (pure (.edit purpose pos) : Act σ Phase) (pure (.edit purpose pos) : Act τ Phase) :=
    tracks_pure fun _ _ h => hpost _ _ _ h.1.abreast
  unfold takeByte
  -- By what the byte is, in the order in which the code asks. Only a text byte comes to ask for
  -- room.
  by_cases hline : b = Byte.carriageReturn ∨ b = Byte.marker
  · rw [if_pos hline, if_pos hline]
    have htaken := (@tracks_endOfLine σ τ R C exact l frames purpose pos start limit limit'
      stop).bind fun _ => htake
    cases echo with
    | true => exact (tracks_newline hR hend).bind fun _ => htaken
    | false => exact htaken
  rw [if_neg hline, if_neg hline]
  by_cases herase : b = Byte.backspace ∨ b = Byte.delete
  · rw [if_pos herase, if_pos herase]
    refine tracks_ite (fun hlt => ?_) fun _ => hsame
    have hback : Tracks R exact (Editing C exact l frames purpose pos start limit limit') post stop
        (pure (.edit purpose (pos - 1)) : Act σ Phase)
          (pure (.edit purpose (pos - 1)) : Act τ Phase) := by
      refine tracks_pure fun i j h => hpost _ _ _ ?_
      obtain ⟨⟨-, ⟨hcoupled, hawaits, hagree, hle, hroom', hshort⟩, -⟩, rfl, -⟩ := h
      have hstart := hcoupled.entryStart_eq
      exact ⟨hcoupled, hawaits, hagree.mono (Nat.le_refl _)
        (Nat.sub_le _ _), by omega, by omega, by omega⟩
    cases echo with
    | true => exact (tracks_print hR hend _).bind fun _ => hback
    | false => exact hback
  rw [if_neg herase, if_neg herase]
  by_cases hcontrol : b < Byte.blank ∧ b ≠ Byte.tab
  · rw [if_pos hcontrol, if_pos hcontrol]
    exact hsame
  rw [if_neg hcontrol, if_neg hcontrol]
  have hiff := hroom (Byte.isText_of_unedited herase hcontrol)
  by_cases hfull : limit ≤ pos
  · rw [if_pos hfull, if_pos (hiff.1 hfull)]
    exact (tracks_writeByte hR hend _).bind fun _ => hsame
  have hfull' : ¬ limit' ≤ pos := fun h => hfull (hiff.2 h)
  rw [if_neg hfull, if_neg hfull']
  refine (tracks_put (Nat.lt_of_not_le hfull')).bind fun _ => ?_
  have hedit : Tracks R exact (fun i j => Abreast C exact i j (.edit purpose (pos + 1))) post stop
      (pure (.edit purpose (pos + 1)) : Act σ Phase)
        (pure (.edit purpose (pos + 1)) : Act τ Phase) :=
    tracks_pure fun _ _ h => hpost _ _ _ h
  cases echo with
  | true =>
    exact (tracks_writeByte hR (fun i j h => hstop i j (Abreast.coupled h)) b).bind fun _ => hedit
  | false => exact hedit

/-- Typing one byte in both: it has room in both or in neither. -/
theorem pairs_typeByte {s : Session σ} {t : Session τ} (hhosts : R s.host t.host)
    (h : Level C exact l frames (.edit purpose pos) s.interpreter t.interpreter)
    (hpeeks : exact ∨ (final (typeByte purpose pos s)).journal.peeks = s.journal.peeks)
    (hroom : Ends (Host.read s.host) (fun b _ => Byte.IsText b →
      (s.interpreter.entryEnd ≤ pos ↔ t.interpreter.entryEnd ≤ pos)) fun _ _ => True)
    (hpost : ∀ phase i j, Abreast C exact i j phase → post phase i j)
    (hstop : ∀ i j, Coupled C exact i j → stop i j)
    (htake : Tracks R exact (fun i j => (∃ line, TypedAlike C exact line i j) ∧
      i.Asking l frames purpose ∧ C.Awaits i.currentLine purpose) post stop
      (takeFor purpose : Act σ Phase) (takeFor purpose : Act τ Phase)) :
    Pairs (typeByte purpose pos s) (typeByte purpose pos t)
      (fun phase s' t' => R s'.host t'.host ∧ post phase s'.interpreter t'.interpreter)
      fun _ s' t' => R s'.host t'.host ∧ stop s'.interpreter t'.interpreter := by
  obtain ⟨hm, hm'⟩ := h.layouts
  have hbegun {ρ : Type} [Host ρ] {u : Session ρ} (hu : u.interpreter.memory.Layout) :
    typeByte purpose pos u =
      (readByte >>= takeByte purpose pos u.interpreter.memory.entryStart u.interpreter.entryEnd
        u.interpreter.echo) u := by
    rw [typeByte_eq]
    refine (bind_of_ok (show look (·.memory.entryStart) u = .ok u.interpreter.memory.entryStart u
      from rfl)).trans ?_
    exact bind_of_ok (entryLimit_eq hu)
  rw [hbegun hm] at hpeeks ⊢
  rw [hbegun hm', h.coupled.entryStart_eq, h.coupled.echo_eq]
  have hread : Pairs (readByte s) (readByte t) _ _ := pairs_onHost hR.read hhosts
  refine (hread.mono (fun _ _ _ hr => hr) fun e s' t' hr => ?_).bind fun b s' t' hbyte _ hr => ?_
  · obtain ⟨hhosts', hs', ht'⟩ := hr
    rw [hs', ht']
    exact ⟨hhosts', hstop _ _ h.coupled⟩
  · obtain ⟨hr, hhosts', hs', ht'⟩ := hr
    rw [hr] at hroom
    rw [bind_of_ok hbyte] at hpeeks
    have hinterpreter : s'.interpreter = s.interpreter := by rw [hs']
    have hinterpreter' : t'.interpreter = t.interpreter := by rw [ht']
    have hjournal : s'.journal = s.journal := by rw [hs']
    rw [← hjournal] at hpeeks
    refine (tracks_takeByte hR hroom hpost hstop htake).pairs s' t' hhosts' ?_ hpeeks
    rw [hinterpreter, hinterpreter']
    exact ⟨h, rfl, Nat.le_refl _, Nat.le_refl _⟩

end
end
end Session
end LineBasic
