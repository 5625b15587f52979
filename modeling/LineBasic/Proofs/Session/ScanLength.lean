import LineBasic.Host.Script
import LineBasic.Proofs.Expr.Blanks
import LineBasic.Proofs.Expr.OnePass
import LineBasic.Proofs.Session.History

namespace LineBasic

/-- What is read of an expression is the same wherever this text stands. -/
theorem Cursor.exists_passed (text : List UInt8) :
    ∃ passed : List UInt8, passed <+: text ∧ ∀ c : Cursor, c.rest = text →
    c.expression.2 = c.past passed := by
  obtain ⟨passed, hrest⟩ := (Expr.readRelation text).rest_suffix
  refine ⟨passed, ⟨_, hrest⟩, fun c hc => ?_⟩
  subst hc
  exact c.moveTo_eq_past hrest.symm

namespace Session
variable {σ τ : Type}

/-- The expression at the position is evaluated in one pass. It ends behind these bytes whether or
not something fails, and nothing else has changed but the generator. -/
def ScansOver (s : Session σ) (passed : List UInt8) : Prop :=
  let scan := s.interpreter.cursor.scan s.interpreter.memory.view s.interpreter.generator
  let after := fun g : Generator =>
    { s.interpreter with textPos := s.interpreter.textPos + passed.length, generator := g }
  Ends (expression s) (fun x t => t.interpreter = after scan.1.2 ∧ scan.1.1 = .ok x) fun cause t =>
    t.interpreter = after scan.1.2 ∧ ∃ why, scan.1.1 = .error why ∧
      cause = .error (.malformed t.interpreter.textPos why)

theorem scansOver {s : Session σ} (hm : s.interpreter.memory.Layout) {passed : List UInt8}
    (h : s.interpreter.cursor.expression.2 = s.interpreter.cursor.past passed) :
    s.ScansOver passed := by
  have hpos : s.interpreter.cursor.expression.2.pos = s.interpreter.textPos + passed.length := by
    rw [h]
    rfl
  unfold ScansOver
  dsimp only
  rw [Cursor.scan_eq]
  rcases hr : s.interpreter.cursor.expression.1.evaluate s.interpreter.memory.view
    s.interpreter.generator
    with ⟨result, g⟩
  cases result with
  | ok x =>
    refine Ends.of_ok (expression_ok hm hr) ⟨?_, rfl⟩
    rw [hpos]
  | error why =>
    rw [expression_error hm hr, hpos]
    exact ⟨rfl, why, rfl, rfl⟩

/-- Two sessions stand before the same text, each with its own variables, buffer and generator.
Whether or not the expression there can be evaluated in either, both end behind the same bytes, as a
pass with any other data would. If the text is at fault in one session, the expression fails in the
other as well. -/
theorem expression_scans {s : Session σ} {t : Session τ} (hs : s.interpreter.memory.Layout)
    (ht : t.interpreter.memory.Layout)
    (htext : s.interpreter.cursor.rest = t.interpreter.cursor.rest) :
    ∃ passed : List UInt8, passed <+: s.interpreter.cursor.rest ∧
      (∀ view g, (s.interpreter.cursor.scan view g).2 = s.interpreter.cursor.past passed) ∧
      s.ScansOver passed ∧ t.ScansOver passed ∧
      ∀ pos why s', expression s = .error (.error (.malformed pos why)) s' →
      why.isArithmetic = false →
        ∃ pos' why' t', expression t = .error (.error (.malformed pos' why')) t' := by
  obtain ⟨passed, hprefix, hpast⟩ := Cursor.exists_passed s.interpreter.cursor.rest
  have hscans := scansOver hs (hpast _ rfl)
  refine ⟨passed, hprefix, fun view g => ?_, hscans, scansOver ht (hpast _ htext.symm),
    fun pos why s' hrun hfault => ?_⟩
  · rw [Cursor.scan_eq]
    exact hpast _ rfl
  rw [ScansOver, hrun] at hscans
  obtain ⟨-, why', hwhy, he⟩ := hscans
  obtain rfl : why = why' := by
    cases he
    rfl
  rw [Cursor.scan_eq] at hwhy
  -- A tree that is clean has faults of the arithmetic only, and one that is not has a fault
  -- whatever the data.
  have hclean : ¬ t.interpreter.cursor.expression.1.Clean := by
    rw [Cursor.expression, ← htext]
    intro hc
    rw [Expr.isArithmetic_of_evaluate hc hwhy] at hfault
    cases hfault
  obtain ⟨other, hother⟩ :=
    Expr.evaluate_of_not_clean hclean t.interpreter.memory.view t.interpreter.generator
  exact ⟨_, other, _, expression_error ht (Prod.ext hother rfl)⟩

set_option linter.constructorNameAsVariable false in
/-- A division by zero in one session, and none in another where the divisor has been given a value.
-/
theorem expression_scans_of_divisor :
    ∃ s t : Session Script, s.interpreter.memory.Layout ∧ t.interpreter.memory.Layout ∧
    s.interpreter.cursor.rest = t.interpreter.cursor.rest ∧
    Ends (expression s) (fun _ _ => False) (fun cause s' =>
      cause = .error (.malformed (s.interpreter.textPos + 7) .divisionByZero) ∧
        s'.interpreter.textPos = s.interpreter.textPos + 7) ∧
    Ends (expression t) (fun x t' => x = 7 ∧ t'.interpreter.textPos = t.interpreter.textPos + 7)
      (fun _ _ => False) ∧
    ∃ passed : List UInt8, passed <+: s.interpreter.cursor.rest ∧ s.ScansOver passed ∧
    t.ScansOver passed := by
  have hrun : Ends (Session.enter 2 (ascii "?1/X+2*3:")
    (Session.start { ramSize := 256 } ({} : Script) none))
      (fun phase s => phase = .execute ∧
        (s.movedTo (s.interpreter.textPos + 1)).interpreter.cursor.rest = ascii "1/X+2*3:" ∧
        Ends (expression (s.movedTo (s.interpreter.textPos + 1))) (fun _ _ => False) fun cause s' =>
          cause = .error (.malformed (s.interpreter.textPos + 8) .divisionByZero) ∧
            s'.interpreter.textPos = s.interpreter.textPos + 8)
      fun _ _ => False := by
    decide +kernel
  have hrun' : Ends (Session.enter 10 (ascii "X=1")
    (Session.start { ramSize := 256 } ({} : Script) none))
      (fun phase t => phase = .prompt ∧ Ends (Session.enter 2 (ascii "?1/X+2*3:") t)
        (fun phase t => phase = .execute ∧
          (t.movedTo (t.interpreter.textPos + 1)).interpreter.cursor.rest = ascii "1/X+2*3:" ∧
          Ends (expression (t.movedTo (t.interpreter.textPos + 1)))
            (fun x t' => x = 7 ∧ t'.interpreter.textPos = t.interpreter.textPos + 8) fun _ _ =>
              False)
        fun _ _ => False)
      fun _ _ => False := by
    decide +kernel
  -- Both are moments of a session, so their buffers are laid out well.
  obtain ⟨_, s, hs, rfl, hrest, hfails⟩ := hrun.exists_ok
  obtain ⟨_, u, hu, rfl, hrun'⟩ := hrun'.exists_ok
  obtain ⟨_, t, ht, rfl, hrest', hvalue⟩ := hrun'.exists_ok
  obtain ⟨past, hexecute⟩ := History.start.enter_of_ok hs
  obtain ⟨past', hentered⟩ := History.start.enter_of_ok hu
  obtain ⟨past'', hexecute'⟩ := (hentered.next (.rest rfl)).enter_of_ok ht
  obtain ⟨_, _, hready⟩ := hexecute.exists_ready
  obtain ⟨_, _, hready'⟩ := hexecute'.exists_ready
  have hlayout : (s.movedTo (s.interpreter.textPos + 1)).interpreter.memory.Layout :=
    hready.sane.layout
  have hlayout' : (t.movedTo (t.interpreter.textPos + 1)).interpreter.memory.Layout :=
    hready'.sane.layout
  obtain ⟨passed, hprefix, -, hscans, hscans', -⟩ :=
    expression_scans hlayout hlayout' (hrest.trans hrest'.symm)
  exact ⟨_, _, hlayout, hlayout', hrest.trans hrest'.symm, hfails, hvalue, passed, hprefix,
    hscans, hscans'⟩

end Session
end LineBasic
