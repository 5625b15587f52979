import LineBasic.Proofs.Session.Numbered
import LineBasic.Proofs.Session.Replies

namespace LineBasic
variable {σ τ ι : Type}

open Editor (edit)

namespace Interpreter
variable {i j : Interpreter} {v : Variable} {resume : Nat}

theorem worth_nil (i : Interpreter) : (i.worth []).1 = .error .expectedExpression := by
  have hread : (Expr.readRelation (Case.fold [])).expr =
      .malformed .expectedExpression := by decide +kernel
  rw [worth, hread]
  rfl

theorem reply_digit (hroom : 0 < i.room) :
    (i.reply ⟨[byte '0'], Byte.carriageReturn, by decide, by decide⟩).1 = .ok 0 := by
  have hedit : edit i.room [] [byte '0'] = [byte '0'] :=
    show Editor.strike i.room [] (byte '0') = [] ++ [byte '0'] from Editor.strike_of_room
      (by decide) hroom
  have hread : (Expr.readRelation (Case.fold [byte '0'])).expr = .literal 0 := by decide +kernel
  rw [reply, worth, hedit, hread]
  rfl

/-- A reply is asked for, or not a byte of it has been typed, and there is no room for one. -/
structure Starved (i : Interpreter) (v : Variable) (resume : Nat) (phase : Phase) : Prop where
  layout : i.memory.Layout
  room_eq : i.room = 0
  awaits : phase = .ask (.reply v resume) ∨ phase = .edit (.reply v resume) i.memory.entryStart

theorem Untouched.starved {phase phase' : Phase} (hu : i.Untouched j) (h : i.Starved v resume phase)
    (hphase : phase' = .ask (.reply v resume) ∨ phase' = .edit (.reply v resume)
      i.memory.entryStart) :
    j.Starved v resume phase' :=
  ⟨(hu.onlyGap h.layout).layout h.layout, hu.room_eq.trans
    h.room_eq, by rwa [hu.onlyEntry.entryStart_eq]⟩

end Interpreter

namespace Session
variable [Host σ] {v : Variable} {resume : Nat} {s : Session σ} {phase : Phase}

/-- Whatever is typed where there is no room, the reply stays empty and is asked for again. -/
theorem step_starved (h : s.interpreter.Starved v resume phase) :
    Ends (step phase s) (fun phase' s' => s'.interpreter.Starved v resume phase') fun _ _ =>
    True := by
  have hm := h.layout
  have hroom := h.room_eq
  obtain rfl | rfl := h.awaits
  · refine Ends.bind ((talks_writeByte _ s hm).mono (fun _ _ hi => hi) fun _ _ _ => trivial)
      fun _ s' hi => ?_
    exact Ends.of_ok rfl ⟨hi ▸ hm, hi ▸ hroom, Or.inr rfl⟩
  have htyping := (Interpreter.typing_room hm).of_length_le
    (show [].length ≤ s.interpreter.room from Nat.zero_le _)
  have hbyte {j : Interpreter} (hj : TypedByte s.interpreter s.interpreter.memory.entryStart j) :
      s.interpreter.Untouched j := by
    obtain rfl | ⟨b, rfl⟩ := hj
    · exact .refl _
    · exact ⟨rfl, rfl, rfl, htyping.onlyEntry_typed hm (Nat.le_add_right _ _) b⟩
  have htakes : Takes (· = s.interpreter) (fun phase j => j.Starved v resume phase) (fun _ => True)
      (typeByte (.reply v resume) s.interpreter.memory.entryStart : Act σ Phase) := by
    refine takes_typeByte_of hm htyping (fun j pos hj hp hle => ?_) (fun _ _ => trivial) ?_
    · have hstart := hp.le
      rw [(hbyte hj).onlyEntry.entryStart_eq] at hstart
      refine (hbyte hj).starved h (Or.inr (congrArg _ ?_))
      unfold Interpreter.room at hroom
      omega
    · rintro t ht
      -- The line that has ended is empty.
      let none : Keystrokes := ⟨[], Byte.carriageReturn, by decide, by decide⟩
      have htyped := Memory.typed_keyed hm (Interpreter.typing_room hm) []
      have hlayout := ((Interpreter.untouched_keyed hm []).onlyGap hm).layout hm
      obtain ⟨i, host, journal⟩ := t
      cases ht
      obtain ⟨journal', htaken⟩ := takeReply_rejected (s := ⟨_, host, journal⟩) hlayout htyped v
        resume (Interpreter.worth_nil _)
      exact Ends.of_ok htaken ((Interpreter.untouched_replied hm none).starved h (Or.inl rfl))
  exact (htakes s rfl).mono (fun _ _ hj => hj) fun _ _ _ => trivial

theorem drive_starved (call : Call) (steps : Nat) (h : s.interpreter.Starved v resume phase) :
    Ends (drive call.atRest steps phase s) (fun phase' s' => s'.interpreter.Starved v resume phase')
      fun _ _ => True := by
  induction steps generalizing phase s with
  | zero => exact h
  | succ steps ih =>
    exact drive_succ (fun _ => h) fun _ => (step_starved h).mono (fun _ _ h' => ih h') fun _ _ h' =>
      h'

end Session

/-- A reply can be given exactly if there is room for a byte of it. A digit then ends the `INPUT`,
and otherwise the session comes to no other phase, whatever is typed. -/
theorem History.reply_needs_room [Host σ] [Host τ] {settings : Settings} {first : σ}
    {threshold : Option Severity} {past : List (Moment σ)} {call : Call} {v : Variable}
    {resume : Nat} {s : Session σ}
    (h : History (Session.start settings first threshold) past
      (.busy call (.ask (.reply v resume)) s)) :
    (0 < s.interpreter.room → ∀ {input : τ → ι}, Deaf input →
      ∀ {after typist}, Supplies input after (ascii "0\r") typist →
      ∃ t : Session (Recorded τ), input t.host.host = after ∧
        Session.Runs (fun phase t => s.interpreter.AwaitsReply v resume phase t.interpreter) 3
          (.ask (.reply v resume))
          (s.on (Recorded.mk typist [])) .proceed t ∧
        t.interpreter.memory.value v = 0 ∧ t.interpreter.textPos = resume) ∧
    (s.interpreter.room = 0 → ∀ (typist : τ) (steps : Nat),
      Ends (Session.drive call.atRest steps (.ask (.reply v resume)) (s.on typist))
        (fun phase _ => phase = .ask (.reply v resume) ∨ ∃ pos, phase = .edit (.reply v resume) pos)
          fun _ _ => True) := by
  obtain ⟨l, frames, hready⟩ := h.exists_ready
  have hm : s.interpreter.memory.Layout := hready.sane.layout
  constructor
  · intro hroom input hi after typist hk
    obtain ⟨host, journal, hhost, hruns⟩ := Session.runs_accepted
      (s := s.on (Recorded.mk typist [])) hi hm v resume hk
      (Interpreter.reply_digit hroom)
    exact ⟨_, hhost, hruns, Memory.value_stored (Interpreter.layout_replied hm _) v 0, rfl⟩
  · intro hroom typist steps
    refine (Session.drive_starved call steps (s := s.on typist) ⟨hm, hroom, Or.inl rfl⟩).mono
      (fun phase t ht => ?_) fun _ _ h => h
    exact ht.awaits.imp_right fun he => ⟨_, he⟩

/-- Where there is room a zero is stored. -/
theorem History.reply_zero :
    ∃ s : Session Script, 0 < s.interpreter.room ∧ ∃ t : Session (Recorded Script),
    Script.input t.host.host = [] ∧
      Session.Runs (fun phase t => s.interpreter.AwaitsReply ⟨0⟩ 921 phase t.interpreter) 3
        (.ask (.reply ⟨0⟩ 921))
        (s.on (Recorded.mk { input := ascii "0\r" } [])) .proceed t ∧
      t.interpreter.memory.value ⟨0⟩ = 0 ∧ t.interpreter.textPos = 921 := by
  obtain ⟨past, s₀, s, hexecute, hstep, -, -, hroom⟩ := History.exists_input
  have hasked := hexecute.next (.step rfl hstep)
  have hroom : 0 < s.interpreter.room := by
    rw [hroom]
    decide
  exact ⟨s, hroom, hasked.reply_needs_room.1 hroom Script.deaf
    (Script.supplies (ascii "0\r") [] #[])⟩

namespace Session
variable {line : List UInt8} {l : Listing} {frames : List Frame}

/-- A line without a number that is submitted stands up against the variables and is executed. -/
theorem submit_direct [Host σ] {s : Session σ} (hs : s.interpreter.memory.Sane l frames)
    (hcut : s.interpreter.memory.cutLine line = line) (hn : entryNumber line = 0)
    (ht : entryText line = Case.fold line) :
    ∃ t : Session σ, submit line s = .ok .direct t ∧ t.host = s.host ∧
    t.interpreter.cursor.rest = Case.fold line ∧
      s.interpreter.memory.OnlyGap t.interpreter.memory ∧
      t.interpreter.directText = some (s.interpreter.memory.stagingStart line) := by
  have hm := hs.layout
  have hgap := Memory.onlyGap_placed line hm
  have htyped := Memory.typed_placed line hm
  have hsubmit := submit_eq line hm
  rw [hcut] at hgap htyped hsubmit
  have hplaced := hgap.layout hm
  have hstands := htyped.stands_taken hplaced
  have hbody : (s.interpreter.memory.placed line).bodyStart line =
      (s.interpreter.memory.placed line).stagingStart line := by
    rw [Memory.bodyStart, Memory.stagingStart, ht, Case.length_fold]
    omega
  refine ⟨_, hsubmit.trans (accept_direct (hs.onlyGap hgap).toSound htyped hn), rfl, ?_,
    hgap.trans (htyped.onlyGap_taken hplaced), rfl⟩
  rw [← hbody] at hstands
  exact Cursor.rest_of_stands hstands (Case.marker_notMem_fold htyped.marker_notMem)

end Session

namespace Interpreter

theorem exists_inputs {i : Interpreter} (h : i.cursor.rest = ascii "INPUTA") :
    ∃ resume, i.inputs? = some (⟨0⟩, resume) := by
  have htoken : i.cursor.token Keyword.vocabulary = (some .input, i.cursor.moveTo (ascii "A")) := by
    have hfound : Lexeme.token Keyword.vocabulary (ascii "INPUTA") =
        (some .input, ascii "A") := by decide
    rw [Cursor.token, h, hfound]
  have hrest : (i.cursor.moveTo (ascii "A")).rest = ascii "A" :=
    i.cursor.rest_moveTo (h ▸ List.suffix_append (ascii "INPUT") (ascii "A"))
  generalize i.cursor.moveTo (ascii "A") = c at htoken hrest
  have hskip : c.skipBlanks = c := by
    rw [Cursor.skipBlanks, hrest, show Lexeme.skipBlanks (ascii "A") = ascii "A" by decide, ← hrest,
      Cursor.moveTo_rest]
  have hpeek : c.atEndOfStatement = false := by
    rw [Cursor.atEndOfStatement, Cursor.peek_eq_head?, hrest]
    decide
  have hletter : c.letter? = some ⟨0⟩ := by
    rw [Cursor.letter?, hrest]
    decide
  have hafter : c.advance.rest = [] := by
    have hadd := c.rest_add (show 1 ≤ c.rest.length by rw [hrest]; decide)
    rw [hrest] at hadd
    exact hadd
  have hend : c.advance.skipBlanks.atEndOfStatement = true := by
    have hnil := c.advance.rest_moveTo (Lexeme.skipBlanks_suffix _)
    rw [hafter] at hnil
    have hmarker := (Cursor.rest_eq_nil_iff _).1
      (show c.advance.skipBlanks.rest = [] by rw [Cursor.skipBlanks, hafter]; exact hnil)
    rw [Cursor.atEndOfStatement, hmarker]
    decide
  refine ⟨c.advance.skipBlanks.pos, ?_⟩
  unfold inputs? Cursor.named?
  rw [htoken]
  simp only [hskip, hpeek, hletter, hend, if_true, Bool.false_eq_true, if_false]

end Interpreter

/-- Between a long program and the direct line that is executed there may be no room for a reply. -/
theorem History.reply_never_taken : ∃ past, ∃ s : Session Script, ∃ resume,
    History (Session.start .small {} none) past (.busy .enter (.ask (.reply ⟨0⟩ resume)) s) ∧
      s.interpreter.memory.lines = .ok [⟨1, longText⟩, ⟨2, List.replicate 191 (byte 'B')⟩] ∧
      ∀ (typist : Script) (steps : Nat),
        Ends (Session.drive Phase.awaitsCommand steps (.ask (.reply ⟨0⟩ resume)) (s.on typist))
          (fun phase _ => phase = .ask (.reply ⟨0⟩ resume) ∨
            ∃ pos, phase = .edit (.reply ⟨0⟩ resume) pos) fun _ _ => True := by
  have hlength : (List.replicate 191 (byte 'B')).length ≤ 197 := by
    rw [List.length_replicate]
    decide
  obtain ⟨past, s, l, frames, hpast, hs, hfree, hlines⟩ :=
    History.exists_nearly_full _ (by decide) hlength
    (by decide +kernel) (by decide +kernel) (by decide +kernel)
  rw [List.length_replicate] at hfree
  have hcut : s.interpreter.memory.cutLine (ascii "INPUTA") = ascii "INPUTA" := by
    rw [Memory.cutLine_eq _ (by decide), Memory.entryRoom_eq hs.layout, hfree]
    decide
  have hquiet := hpast.next (.host ({} : Script))
  obtain ⟨⟨i, host, journal⟩, hsubmit, hhost, hrest, hgap, hdirect⟩ :=
    Session.submit_direct (s := { s with host := ({} : Script) })
    hs hcut (by decide) (by decide)
  cases hhost
  obtain ⟨resume, hinputs⟩ := Interpreter.exists_inputs (hrest.trans (by decide))
  have hdirected : Session.step .direct ⟨i, ({} : Script), journal⟩ = .ok .poll
      ⟨i, {}, journal⟩ := by
    have hline : i.cursor.atEndOfLine = false := decide_eq_false fun h => by
      rw [(Cursor.rest_eq_nil_iff _).2 h] at hrest
      exact absurd hrest (by decide)
    show EStateM.Result.ok (if i.cursor.atEndOfLine = true then Phase.prompt else .poll) _ = _
    rw [hline]
    rfl
  have hpolled : Session.step .poll ⟨i, ({} : Script), journal⟩ = .ok .execute ⟨i, {}, journal⟩ :=
    rfl
  obtain ⟨journal', hasked⟩ := Session.execute_input (s := ⟨i, ({} : Script), journal⟩) hinputs
  have hsane := hs.onlyGap hgap
  refine ⟨_, ⟨{ i with textPos := resume }, {}, journal'⟩, resume,
    (((hquiet.next (.enter hsubmit)).next (.step rfl hdirected)).next (.step rfl hpolled)).next
      (.step rfl hasked),
    hlines ▸ Memory.lines_eq hsane.layout hsane.holds, fun typist steps => ?_⟩
  -- The direct line begins right behind where the reply would.
  have hroom : i.room = 0 := by
    have hend : i.memory.programEnd = s.interpreter.memory.programEnd := hgap.programEnd_eq
    have hbegin : i.memory.variablesBegin = s.interpreter.memory.variablesBegin :=
      hgap.variablesBegin_eq
    have hlength : (ascii "INPUTA").length = 6 := rfl
    unfold Interpreter.room Interpreter.entryEnd
    rw [hdirect]
    simp only [Memory.stagingStart, Memory.entryStart, Memory.entryHeadroom, hlength, hend, hbegin]
    omega
  refine (Session.drive_starved .enter steps (s := ⟨{ i with textPos := resume }, typist, journal'⟩)
    ⟨hsane.layout, hroom, Or.inl rfl⟩).mono (fun phase t ht => ?_) fun _ _ h => h
  exact ht.awaits.imp_right fun he => ⟨_, he⟩

end LineBasic
