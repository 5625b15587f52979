import LineBasic.Proofs.Store

namespace LineBasic

def Category.leadsTo : Category → Phase
  | malformed | impossible => .prompt
  | exhausted => .restart

def refusal? (l : Listing) (top : Nat) (line : List UInt8) : Option Category :=
  if entryNumber line = 65535 then some .impossible
  else if l.Fits top (entryNumber line) (entryText line) then none
  else some .exhausted

def Memory.typedLine (m : Memory) (pos : Nat) : List UInt8 :=
  Cursor.rest ⟨(m.typed pos Byte.marker).ram, m.entryStart⟩

namespace Interpreter.ReadOn
variable {i j : Interpreter}

theorem eq_with (h : i.ReadOn j) :
    j = { i with textPos := j.textPos, generator := j.generator } := by
  obtain ⟨hmemory, hline, hdirect, hecho, -, -⟩ := h
  cases j
  simp only at hmemory hline hdirect hecho
  rw [hmemory, hline, hdirect, hecho]

end Interpreter.ReadOn

namespace Session
variable {σ : Type} {s s' : Session σ} {l : Listing} {frames : List Frame} {line : List UInt8}
  {e : Error}

/-- What comes of a numbered line that a buffer takes: it is set, or it is refused and nothing but
the gap has changed. -/
def Settles (l : Listing) (m : Memory) (line : List UInt8)
    (r : EStateM.Result Halt (Session σ) Phase) : Prop :=
  match refusal? l m.variablesBegin line with
  | none =>
    Ends r (fun phase s => phase = .prompt ∧ ∃ l', s.interpreter.memory.lines = .ok l'.lines ∧
      l.Sets (entryNumber line) (entryText line) l') fun _ _ => False
  | some category =>
    Ends r (fun phase s => phase = category.leadsTo ∧ m.OnlyGap s.interpreter.memory)
      fun h s => (∃ e, h = .io e) ∧ m.OnlyGap s.interpreter.memory

theorem Settles.of_onlyGap {m m' : Memory} {r : EStateM.Result Halt (Session σ) Phase}
    (h : Settles l m' line r) (hg : m.OnlyGap m') : Settles l m line r := by
  unfold Settles at h ⊢
  rw [hg.variablesBegin_eq] at h
  cases hr : refusal? l m.variablesBegin line with
  | none =>
    rw [hr] at h
    exact h
  | some category =>
    rw [hr] at h
    exact h.mono (fun _ _ h => ⟨h.1, hg.trans h.2⟩) fun _ _ h => ⟨h.1, hg.trans h.2⟩

variable [Host σ]

def failure? (s : Session σ) : Option Category :=
  match statement s with
  | .error (.error e) _ => some e.category
  | _ => none

theorem exists_of_failure? {category : Category} (h : failure? s = some category) :
    ∃ e s', statement s = .error (.error e) s' ∧ e.category = category := by
  unfold failure? at h
  split at h
  case h_1 e s' hrun => exact ⟨e, s', hrun, Option.some.inj h⟩
  case h_2 => cases h

theorem readOn_of_statement_error (hs : s.interpreter.Running l frames)
    (h : statement s = .error (.error e) s') :
    s.interpreter.ReadOn s'.interpreter := by
  have hends := statement_ends hs
  rw [h] at hends
  exact hends.readOn

/-- Reporting a failure leaves the buffer as it is and leads where its category says. -/
theorem report_ends (e : Error) (hm : s.interpreter.memory.Layout) :
    Ends (report e s)
      (fun phase s' => phase = e.category.leadsTo ∧ s'.interpreter.memory = s.interpreter.memory)
      fun h s' => (∃ e, h = .io e) ∧ s'.interpreter.memory = s.interpreter.memory := by
  refine (concludes_report e s hm).mono (fun phase s' h => ?_) fun h s' hh =>
    ⟨hh.2, congrArg _ hh.1⟩
  obtain ⟨hc, rfl, hj⟩ | ⟨hc, rfl, hj⟩ := h
  · exact ⟨hc ▸ rfl, congrArg _ hj⟩
  · refine ⟨?_, by rw [hj]⟩
    cases hcategory : e.category with
    | malformed | impossible => rfl
    | exhausted => exact absurd hcategory hc

/-- A failed statement is reported, with the buffer as it was before the statement. -/
theorem execute_error (hs : s.interpreter.Running l frames)
    (h : statement s = .error (.error e) s') :
    Ends (execute s)
      (fun phase s' => phase = e.category.leadsTo ∧ s'.interpreter.memory = s.interpreter.memory)
      fun h s' => (∃ e, h = .io e) ∧ s'.interpreter.memory = s.interpreter.memory := by
  have hread := readOn_of_statement_error hs h
  have hreport := report_ends e (hread.running hs).layout
  rw [hread.memory_eq] at hreport
  exact Ends.after_ok (attempt_of_error h) hreport

theorem accept_settles (hs : s.interpreter.memory.Sound l frames)
    (ht : s.interpreter.memory.Typed line) (hn : entryNumber line ≠ 0) :
    Settles l s.interpreter.memory line (accept s) := by
  have hgap := ht.onlyGap_taken hs.layout
  have htaken : (s.taken line).interpreter.memory.Sound l frames := hs.onlyGap hgap
  -- Whatever refuses the line, the report leaves the buffer as it was staged.
  have hrefused (e : Error) : Ends (report e (s.taken line))
      (fun phase s' => phase = e.category.leadsTo ∧
        s.interpreter.memory.OnlyGap s'.interpreter.memory)
      fun h s' => (∃ e, h = .io e) ∧ s.interpreter.memory.OnlyGap s'.interpreter.memory :=
    (report_ends e htaken.layout).mono (fun _ _ h => ⟨h.1, h.2 ▸ hgap⟩) fun _ _ h =>
      ⟨h.1, h.2 ▸ hgap⟩
  unfold Settles refusal?
  by_cases hmax : entryNumber line = 65535
  · rw [if_pos hmax, accept_invalid hs ht hmax]
    exact hrefused _
  rw [if_neg hmax]
  by_cases hfit : l.Fits s.interpreter.memory.variablesBegin (entryNumber line) (entryText line)
  · obtain ⟨m, journal, hrun, -, hmerged⟩ := accept_stored hs ht hn hmax hfit
    rw [if_pos hfit]
    refine Ends.of_ok hrun ⟨rfl, _, ?_, l.sets_put (ht.staged_taken hs.layout hn hmax).storable⟩
    exact Memory.lines_eq hmerged.sound.layout hmerged.sound.holds
  · rw [if_neg hfit, accept_full hs ht hn hmax hfit]
    exact hrefused _

theorem submit_settles (bytes : List UInt8) (hs : s.interpreter.memory.Sound l frames)
    (hn : entryNumber (s.interpreter.memory.cutLine bytes) ≠ 0) :
    Settles l s.interpreter.memory (s.interpreter.memory.cutLine bytes) (submit bytes s) := by
  have hgap := Memory.onlyGap_placed bytes hs.layout
  rw [submit_eq bytes hs.layout]
  exact (accept_settles (hs.onlyGap hgap) (Memory.typed_placed bytes hs.layout) hn).of_onlyGap hgap

/-- While a line is typed that would be refused, nothing but the gap changes, and so it is when the
line has been refused. -/
theorem typeByte_refused {pos : Nat} {category : Category}
    (hs : s.interpreter.Asking l frames .command) (hp : s.interpreter.memory.Typing pos)
    (hn : entryNumber (s.interpreter.memory.typedLine pos) ≠ 0)
    (hr : refusal? l s.interpreter.memory.variablesBegin (s.interpreter.memory.typedLine pos) =
      some category) :
    Ends (typeByte .command pos s)
      (fun phase s' => ((∃ pos', phase = .edit .command pos') ∨ phase = category.leadsTo) ∧
        s.interpreter.memory.OnlyGap s'.interpreter.memory)
      fun h s' => (∃ e, h = .io e) ∧ s.interpreter.memory.OnlyGap s'.interpreter.memory := by
  have hm := hs.sane.layout
  have hgap {j : Interpreter} (hj : TypedByte s.interpreter pos j) : s.interpreter.memory.OnlyGap
      j.memory := by
    obtain rfl | ⟨b, rfl⟩ := hj
    · exact .refl _
    · exact hp.onlyGap_typed hm b
  have htakes : Takes (· = s.interpreter)
      (fun phase j => ((∃ pos', phase = .edit .command pos') ∨ phase = category.leadsTo) ∧
        s.interpreter.memory.OnlyGap j.memory)
      (fun j => s.interpreter.memory.OnlyGap j.memory) (typeByte .command pos : Act σ Phase) := by
    refine takes_typeByte_of hm hp (fun j pos' hj _ _ => ⟨Or.inl ⟨pos', rfl⟩, hgap hj⟩)
      (fun j hj => hgap hj) ?_
    -- The line has ended: its marker stands in the gap as well, and it is taken from there.
    intro s' hs'
    have hmarked : s.interpreter.memory.OnlyGap s'.interpreter.memory := hs' ▸ hp.onlyGap_typed hm _
    have htyped : s'.interpreter.memory.Typed (s.interpreter.memory.typedLine pos) :=
      hs' ▸ hp.typed_marker hm
    have hsettles := (accept_settles (hs.sane.toSound.onlyGap hmarked) htyped hn).of_onlyGap hmarked
    unfold Settles at hsettles
    rw [hr] at hsettles
    exact hsettles.mono (fun _ _ h => ⟨Or.inr h.1, h.2⟩) fun _ _ h => h
  exact htakes s rfl

/-- A restart takes all frames off the stack and changes nothing else of the buffer. -/
theorem restart_unstacks (hs : s.interpreter.memory.Sane l frames) :
    Ends (restart s)
      (fun phase s' => phase = .prompt ∧ s'.interpreter.memory.frames = [] ∧
        s'.interpreter.memory = { s.interpreter.memory with stackTop := s.interpreter.memory.size })
      fun h s' => (∃ e, h = .io e) ∧ s'.interpreter.memory.frames = [] ∧
        s'.interpreter.memory = { s.interpreter.memory with stackTop :=
        s.interpreter.memory.size } := by
  have hnone := hs.released.stack.frames_eq
  refine (restart_ends hs.layout).mono (fun phase s' h => ?_) fun h s' hh => ?_
  · obtain ⟨hphase, hreleased⟩ := h
    exact ⟨hphase, by rw [hreleased, hnone]; rfl, congrArg Interpreter.memory hreleased⟩
  · obtain ⟨hio, hreleased⟩ := hh
    exact ⟨hio, by rw [hreleased, hnone]; rfl, congrArg Interpreter.memory hreleased⟩

end Session

/-- A failure changes nothing that it may not change. -/
structure Unharmed {σ : Type} [Host σ] (l : Listing) (M : Moment σ) : Prop where
  lines_eq : M.memory.lines = .ok l.lines
  /-- A statement that fails has only read on, drawn from the generator and written to the host. It
  is reported with the buffer as it was, the stack included. -/
  statement : ∀ call s, M = .busy call .execute s → ∀ e s', Session.statement s = .error
    (.error e) s' →
    s'.interpreter = { s.interpreter with
      textPos := s'.interpreter.textPos, generator := s'.interpreter.generator } ∧
    Ends (Session.step .execute s)
      (fun phase s' => phase = e.category.leadsTo ∧ s'.interpreter.memory = s.interpreter.memory)
      fun h s' => (∃ e, h = .io e) ∧ s'.interpreter.memory = s.interpreter.memory
  /-- A numbered line that is submitted is set, or it is refused and nothing but the gap changes. -/
  submitted : ∀ s, M = .idle s → ∀ bytes, entryNumber (s.interpreter.memory.cutLine bytes) ≠ 0 →
    Session.Settles l s.interpreter.memory (s.interpreter.memory.cutLine bytes)
      (Session.submit bytes s)
  /-- A numbered line that would be refused can be typed further, or it is ended and refused;
  nothing but the gap changes. -/
  typed : ∀ call pos s, M = .busy call (.edit .command pos) s →
    entryNumber (s.interpreter.memory.typedLine pos) ≠ 0 → ∀ category,
      refusal? l s.interpreter.memory.variablesBegin (s.interpreter.memory.typedLine pos) =
        some category →
        Ends (Session.step (.edit .command pos) s)
          (fun phase s' => ((∃ pos', phase = .edit .command pos') ∨ phase = category.leadsTo) ∧
            s.interpreter.memory.OnlyGap s'.interpreter.memory)
          fun h s' => (∃ e, h = .io e) ∧ s.interpreter.memory.OnlyGap s'.interpreter.memory
  /-- The restart after a failure for want of room empties the stack. -/
  restart : ∀ call s, M = .busy call .restart s →
    Ends (Session.step .restart s)
      (fun phase s' => phase = .prompt ∧ s'.interpreter.memory.frames = [] ∧
        s'.interpreter.memory = { s.interpreter.memory with stackTop := s.interpreter.memory.size })
      fun h s' => (∃ e, h = .io e) ∧ s'.interpreter.memory.frames = [] ∧
        s'.interpreter.memory = { s.interpreter.memory with stackTop := s.interpreter.memory.size }

/-- At every moment of every session a failure changes nothing: what is malformed or impossible
leads to the prompt with the buffer as it was, and what has no room to a restart, which empties the
stack. -/
theorem History.exists_unharmed {σ : Type} [Host σ] {settings : Settings} {host : σ}
    {threshold : Option Severity} {past : List (Moment σ)} {M : Moment σ}
    (h : History (Session.start settings host threshold) past M) :
    ∃ l, Unharmed l M := by
  obtain ⟨l, frames, hready⟩ := h.exists_ready
  have hsane := hready.sane
  refine ⟨l, Memory.lines_eq hsane.layout hsane.holds, ?_, ?_, ?_, ?_⟩
  · rintro call s rfl e s' hrun
    have hrunning : s.interpreter.Running l frames := hready
    exact ⟨(Session.readOn_of_statement_error hrunning hrun).eq_with, Session.execute_error
      hrunning hrun⟩
  · rintro s rfl bytes hn
    exact Session.submit_settles bytes hsane.toSound hn
  · rintro call pos s rfl hn category hr
    obtain ⟨hasking, htyping⟩ : s.interpreter.Asking l frames .command ∧
        s.interpreter.memory.Typing pos := hready
    exact Session.typeByte_refused hasking htyping hn hr
  · rintro call s rfl
    exact Session.restart_unstacks hsane

set_option linter.constructorNameAsVariable false in
/-- A direct line that divides by zero fails at its statement. -/
theorem History.unharmed_of_division :
    ∃ s s' : Session Script, ∃ e : Error, e.category = .malformed ∧
    Session.statement s = .error (.error e) s' ∧ (∃ l, Unharmed l (.busy .enter .execute s)) ∧
    s'.interpreter = { s.interpreter with
      textPos := s'.interpreter.textPos, generator := s'.interpreter.generator } := by
  have hrun : Ends (Session.enter 2 (ascii "A=1/0")
    (Session.start { ramSize := 1024 } ({} : Script) none))
      (fun phase s => phase = .execute ∧ Session.failure? s = some .malformed) fun _ _ =>
        False := by
    decide +kernel
  obtain ⟨_, s, hs, rfl, hfailure⟩ := hrun.exists_ok
  obtain ⟨e, s', hs', he⟩ := Session.exists_of_failure? hfailure
  obtain ⟨past, hexecute⟩ := History.start.enter_of_ok hs
  obtain ⟨l, hunharmed⟩ := exists_unharmed hexecute
  exact ⟨s, s', e, he, hs', ⟨l, hunharmed⟩, (hunharmed.statement _ _ rfl e s' hs').1⟩

end LineBasic
