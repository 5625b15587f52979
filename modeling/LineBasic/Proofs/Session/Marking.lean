import LineBasic.Proofs.Session.Failure
import LineBasic.Proofs.Session.Printing

namespace LineBasic

/-- A line with the byte at a place in it marked; past its end there is none to mark. -/
def Line.marked (line : Line) (place : Nat) : List UInt8 :=
  line.text.set place (byte '^')

/-- What is shown of a stored line in which something malformed was found: its number and its text
with the mark. -/
def Line.complaint (line : Line) (place : Nat) : List UInt8 :=
  ascii "What? " ++ Decimal.digits line.number.toNat ++ [Byte.blank] ++ line.marked place ++
    [Byte.marker]

theorem Line.marked_eq (line : Line) {start column : Nat} (h : start ≤ column) :
    line.text.mapIdx (fun i b => if start + i = column then byte '^' else b) = line.marked
      (column - start) := by
  apply List.ext_getElem
  · rw [List.length_mapIdx, marked, List.length_set]
  · intro i hi hi'
    simp only [marked, List.getElem_mapIdx, List.getElem_set]
    by_cases he : start + i = column
    · rw [if_pos he, if_pos (by omega)]
    · rw [if_neg he, if_neg (by omega)]

namespace Session
variable {σ : Type} [Host σ]

/-- The report of something malformed in a stored line shows that line with the mark. -/
theorem report_complains {s : Session (Recorded σ)} {e : Error} {line : Line} {address : Nat}
    (hc : e.category = .malformed) (hline : s.interpreter.currentLine = some address)
    (hat : s.interpreter.memory.lineAt address = .ok (some line))
    (hlo : Memory.textStart address ≤ e.column) :
    Shows s (line.complaint (e.column - Memory.textStart address)) (fun phase _ => phase = .prompt)
      (fun _ _ => False)
      (report e s) := by
  have hcurrent : look (·.currentLine) s = .ok (some address) s := by
    rw [← hline]
    rfl
  -- The complaint in the pieces in which it is written.
  have hbytes : line.complaint (e.column - Memory.textStart address) =
      ascii Category.malformed.reply ++ ([Byte.blank] ++
        (Decimal.digits line.number.toNat ++ ([Byte.blank] ++
        (line.marked (e.column - Memory.textStart address) ++ ([Byte.marker] ++ []))))) := by
    rw [Line.complaint, show ascii "What? " = ascii Category.malformed.reply ++
      [Byte.blank] by decide]
    simp only [List.append_assoc, List.append_nil]
  rw [hbytes]
  unfold report
  refine .after hcurrent rfl (.after (t := s.noted _) rfl rfl ?_)
  simp only [hc]
  refine (shows_print _ _).bind fun _ t ht => (shows_writeByte _ t).bind fun _ t' ht' => ?_
  have hlook : lookIn (·.lineAt address) t' = .ok (some line) t' :=
    lookIn_of_ok (f := (·.lineAt address)) (by rw [ht', ht]; exact hat)
  refine .after hlook rfl ?_
  simp only [Line.marked_eq line hlo]
  refine (shows_print _ t').bind fun _ _ _ => ?_
  refine (shows_writeByte _ _).bind fun _ _ _ => ?_
  refine (shows_print _ _).bind fun _ _ _ => ?_
  refine (shows_writeByte _ _).bind fun _ t'' _ => ?_
  exact .after (s := t'') (t := { t'' with interpreter :=
    { t''.interpreter with currentLine := none } }) rfl rfl
    ⟨rfl, (List.append_nil _).symm⟩

end Session

/-- Whatever a statement of a stored line finds malformed, wherever in the line the statement began,
is found in that line or at its end. The report shows the number and the text of the line, and there
it is marked. -/
theorem History.report_marks {σ : Type} [Host σ] {settings : Settings} {first : Recorded σ}
    {threshold : Option Severity} {past : List (Moment (Recorded σ))} {call : Call}
    {s t : Session (Recorded σ)} {address : Nat} {e : Error}
    (h : History (Session.start settings first threshold) past (.busy call .execute s))
    (hline : s.interpreter.currentLine = some address)
    (hrun : Session.statement s = .error (.error e) t) (hc : e.category = .malformed) :
    ∃ line : Line, s.interpreter.memory.lineAt address = .ok (some line) ∧
      Memory.Stands s.interpreter.memory.ram address line.record ∧
      address + 3 ≤ e.column ∧ e.column ≤ address + 3 + line.text.length ∧
      Session.Shows t (line.complaint (e.column - (address + 3))) (fun phase _ => phase = .prompt)
        (fun _ _ => False)
        (Session.step .execute s) := by
  obtain ⟨l, frames, hready⟩ := h.exists_ready
  have hs : s.interpreter.Running l frames := hready
  have hstops := Session.statement_ends hs
  rw [hrun] at hstops
  obtain ⟨hlo, hhi⟩ := hstops.ahead e rfl hc
  -- The statement began inside the line, and what it has read up to the failure is no further than
  -- the end of it.
  have hinside := hs.inside_of_le hs.inside hlo hhi
  rw [hline] at hinside
  obtain ⟨line, hstarts, hcolumn⟩ := hinside
  have hat : Memory.LineAt s.interpreter.memory l line address := ⟨hstarts, hs.holds, hs.layout⟩
  have hread := hstops.readOn
  refine ⟨line, hat.lineAt_eq, hat.stands, hcolumn.1, hcolumn.2, ?_⟩
  refine Ends.after_ok (Session.attempt_of_error hrun) (Session.report_complains hc ?_ ?_ hcolumn.1)
  · rw [hread.currentLine_eq, hline]
  · rw [hread.memory_eq]
    exact hat.lineAt_eq

set_option synthInstance.maxSize 512 in
set_option linter.constructorNameAsVariable false in
/-- A division by zero in the middle of a line, in the second pass of a loop. -/
theorem History.report_marks_second_pass :
    ∃ (past : List (Moment (Recorded Script))) (s t : Session (Recorded Script))
    (e : Error) (line : Line), History (Session.start { ramSize := 1024 }
      (Recorded.mk ({} : Script) []) none) past
      (.busy .enter .execute s) ∧ s.interpreter.currentLine = some 0 ∧
      Session.statement s = .error (.error e) t ∧
    e.category = .malformed ∧ s.interpreter.memory.lineAt 0 = .ok (some line) ∧
    line.complaint (e.column - 3) = ascii "What? 1 FORI=1TO2:?1/(2-I)^I:NEXT\n" ∧
    Session.Shows t (line.complaint (e.column - 3)) (fun phase _ => phase = .prompt)
      (fun _ _ => False)
      (Session.step .execute s) := by
  have hrun : Ends (Session.enter 1 (ascii "1FORI=1TO2:?1/(2-I);I:NEXT")
        (Session.start { ramSize := 1024 } (Recorded.mk ({} : Script) []) none))
      (fun phase s => phase = .prompt ∧ Ends (Session.enter 14 (ascii "RUN") s)
        (fun phase s => phase = .execute ∧ s.interpreter.currentLine = some 0 ∧
          (s.interpreter.memory.lineAt 0).toOption.join.map (Line.complaint · 18) =
            some (ascii "What? 1 FORI=1TO2:?1/(2-I)^I:NEXT\n") ∧
          Ends (Session.statement s) (fun _ _ => False) fun h _ =>
            h = .error (.malformed 21 .divisionByZero))
        fun _ _ => False)
      fun _ _ => False := by
    decide +kernel
  obtain ⟨_, s, hs, rfl, hrun⟩ := hrun.exists_ok
  obtain ⟨_, s', hs', rfl, hline, hshown, hfails⟩ := hrun.exists_ok
  obtain ⟨past, hstored⟩ := History.start.enter_of_ok hs
  obtain ⟨past', hexecute⟩ := (hstored.next (.rest rfl)).enter_of_ok hs'
  cases hstatement : Session.statement s' with
  | ok phase t =>
    rw [hstatement] at hfails
    exact hfails.elim
  | error cause t =>
    rw [hstatement] at hfails
    obtain rfl : cause = _ := hfails
    obtain ⟨line, hat, -, -, -, hshows⟩ := report_marks hexecute hline hstatement rfl
    rw [hat] at hshown
    exact ⟨past', s', t, _, line, hexecute, hline, hstatement, rfl, hat,
      Option.some.inj hshown, hshows⟩

end LineBasic
