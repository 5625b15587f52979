import LineBasic.Proofs.Session.Abreast
import LineBasic.Proofs.Session.Walks

namespace LineBasic.Session
variable {σ τ α : Type} [Host σ] {R : σ → τ → Prop} {C : Coupling} {exact : Prop}
  {word : Option Keyword} {l : Listing} {frames : List Frame} {pre : Interpreter → Prop}

open Interpreter (InStep Abreast Coupled)

abbrev Carries (R : σ → τ → Prop) (C : Coupling) (exact : Prop) (word : Option Keyword)
    (l : Listing) (frames : List Frame) (pre : Interpreter → Prop) (act : Act σ Phase)
    (act' : Act τ Phase) : Prop :=
  Walks R C exact word l frames pre (Turns l frames) (fun phase i j => Abreast C exact i j phase)
    act act'

theorem walks_pass {phase : Phase} (hp : phase ∈ [Phase.proceed, .nextLine, .restart, .bye]) :
    Carries R C exact word l frames pre (pure phase : Act σ Phase) (pure phase : Act τ Phase) := by
  refine walks_pure (fun i _ => Effect.turns (.pass (.refl i) hp) rfl ?_) fun _ _ hi _ =>
    hi.abreast hp
  simp only [List.mem_cons, List.not_mem_nil, or_false] at hp
  rcases hp with rfl | rfl | rfl | rfl
  all_goals decide

theorem walks_assign :
    Carries R C exact word l frames pre (assign : Act σ Phase) (assign : Act τ Phase) := by
  refine scans_readVariable.bind fun v => ?_
  refine (scans_expect (by decide) (by decide) _).bind fun _ => ?_
  refine scans_expression.bind fun x => ?_
  refine scans_expectEndOfStatement.bind fun _ => ?_
  constructor
  case leads =>
    intro s hs he
    refine Ends.after_ok (onMemory_of_ok (Memory.store_eq v x hs.layout)) ?_
    exact ⟨s.interpreter, .refl s, Effect.turns (.store v x (.refl _) he) rfl (by decide)⟩
  case tracks =>
    refine (tracks_store (P := InStep C exact l frames) fun i j hi => ?_).bind fun _ => ?_
    · exact ⟨hi.1.layouts, hi.1.stored v x⟩
    · exact tracks_pure fun _ _ hi => hi.proceed

theorem walks_run :
    Carries R C exact word l frames pre (run : Act σ Phase) (run : Act τ Phase) := by
  constructor
  case leads =>
    exact fun s _ _ => ⟨s.interpreter, .refl s, Effect.turns (.run (.refl _)) rfl (by decide)⟩
  case tracks =>
    refine (tracks_clearStack (P := Coupled C exact) fun i j hi => ?_).bind fun _ => ?_
    · exact hi.1.toCoupled.unstacked hi.1.running.layout
    refine (tracks_atLine (fun _ _ _ => rfl) fun _ _ hi => hi).bind fun _ => ?_
    exact tracks_pure fun _ _ hi => hi

theorem walks_finish :
    Carries R C exact word l frames pre (finish : Act σ Phase) (finish : Act τ Phase) := by
  refine scans_expectEndOfLine.bind fun _ => ?_
  constructor
  case leads =>
    exact fun s _ _ => ⟨s.interpreter, .refl s, Effect.turns (.finish (.refl _)) rfl (by decide)⟩
  case tracks =>
    refine (tracks_atLine (fun i j hi => ?_) fun _ _ hi => hi.1.toCoupled).bind fun _ => ?_
    · exact congrArg some (C.programEnd_eq hi.1.memory)
    · exact tracks_pure fun _ _ hi => hi

theorem walks_branch :
    Carries R C exact word l frames pre (branch : Act σ Phase) (branch : Act τ Phase) := by
  refine scans_target.bind fun x => .cursor fun c c' hc => ?_
  simp only [hc.atEndOfLine_eq, hc.pos_eq, fail_bind]
  refine walks_ite (fun _ => walks_fail_impossible rfl _) fun _ => walks_pass ?_
  split
  · decide
  · decide

theorem walks_goto :
    Carries R C exact word l frames pre (goto : Act σ Phase) (goto : Act τ Phase) := by
  refine scans_destination.bind fun number => ?_
  constructor
  case leads =>
    intro s hs _
    exact Ends.of_ok (jump_eq number hs.layout hs.holds)
      ⟨s.interpreter, .refl s, Effect.turns (.jump number (.refl _)) rfl (by decide)⟩
  case tracks =>
    exact tracks_jump number fun _ _ hi => ⟨hi.1.toCoupled, frames, hi.1.running.toSound⟩

/-- A frame is pushed if there is room; otherwise the statement stops. -/
theorem leads_pushFrame {frame : Frame} {rest : Act σ Phase}
    (h : ∀ s : Session σ, s.interpreter.Running l frames → pre s.interpreter →
      ¬ s.interpreter.memory.stackTop < s.interpreter.memory.stackLimit + frame.size →
        Ends (rest ((s.withMemory (s.interpreter.memory.pushed frame)).noted (.pushed frame)))
          (fun phase t => ∃ j, Past word s j t.host ∧ Turns l frames j phase t.interpreter)
          (Stops word s)) :
    Leads word l frames pre (Turns l frames) (pushFrame frame >>= fun _ => rest) := by
  intro s hs hp
  by_cases hroom : s.interpreter.memory.stackTop < s.interpreter.memory.stackLimit + frame.size
  · have hpush : pushFrame frame s = _ :=
      bind_of_error (onMemory_of_error (s := s) (Memory.pushFrame_full hroom))
    exact Ends.after_error hpush (stops_error fun hc => Category.noConfusion hc)
  · exact Ends.after_ok (pushFrame_of_room hroom hs.layout) (h s hs hp hroom)

theorem walks_gosub :
    Carries R C exact word l frames pre (gosub : Act σ Phase) (gosub : Act τ Phase) := by
  refine scans_destination.bind fun number => .look (fun i j hi => ?_) fun frame => ?_
  · rw [hi.currentLine_eq, hi.textPos_eq]
  constructor
  case leads =>
    refine leads_pushFrame fun s hs hp hroom => ?_
    obtain ⟨he, hf⟩ := hp
    have hsavable : frame.Savable := hf ▸ hs.savable hs.inside
    have hsound := hs.toSound.pushed hsavable hroom
    refine Ends.of_ok (jump_eq number hsound.layout hsound.holds) ⟨s.interpreter, .refl s, ?_⟩
    simp only [noted, withMemory, Interpreter.withMemory]
    subst hf
    exact Effect.turns (.call (j := s.interpreter) number (.refl _) he hroom) rfl (by decide)
  case tracks =>
    refine (tracks_pushFrame fun i j hi => ⟨hi.1, ?_⟩).bind fun _ => ?_
    · exact hi.2.2 ▸ hi.1.running.savable hi.1.running.inside
    · exact tracks_jump number fun i j hi => ⟨hi.1.1, _, hi.2⟩

theorem leads_impossible (why : Diagnostic) :
    Leads word l frames pre (Turns l frames)
      (do fail (.impossible (← look (·.textPos)) why) : Act σ Phase) :=
  Leads.look fun _ => leads_fail fun _ _ hc => Category.noConfusion hc

theorem walks_goBack :
    Carries R C exact word l frames pre (goBack : Act σ Phase) (goBack : Act τ Phase) := by
  constructor
  case leads =>
    refine Leads.look fun found => ?_
    rcases found with _ | ⟨address, frame⟩
    · exact leads_impossible _
    cases frame with
    | loop => exact leads_impossible _
    | gosub line pos =>
      intro s hs hp
      obtain ⟨before, after, rfl, rfl, -, hb⟩ := hs.stack.findGosub_eq_some hp.2
      refine Ends.after_ok (onMemory_of_ok (Memory.removeFrame_eq hs.stack))
        ⟨s.interpreter, .refl s, ⟨_, .goBack (.refl _) rfl hb⟩, Or.inr ⟨rfl, ?_⟩, by decide⟩
      exact ⟨.gosub line pos, List.mem_append_right _ List.mem_cons_self, rfl, rfl⟩
  case tracks =>
    refine .similar (S := FoundAlike) (fun _ => rfl) (fun i j hi => ?_)
      fun found found' hfound => ?_
    · exact Memory.map_findGosub hi.1.running.stack hi.1.sound'.stack
    obtain ⟨rfl, rfl⟩ | ⟨frame, address, address', rfl, rfl⟩ := hfound.exists_frame
    · exact tracks_notFound _ fun _ _ hi => hi.1.1
    cases frame with
    | loop => exact tracks_notFound _ fun _ _ hi => hi.1.1
    | gosub line pos =>
      refine Tracks.bind (tracks_takeOut fun i j hi => foundAt_gosub hi.1.1 hi.2.1 hi.2.2)
        fun popped => ?_
      refine (tracks_notePopped popped).bind fun _ => ?_
      refine (tracks_resume fun _ _ hi => hi).bind fun _ => ?_
      exact tracks_pure fun _ _ hi => hi

theorem walks_next :
    Carries R C exact word l frames pre (next : Act σ Phase) (next : Act τ Phase) := by
  refine scans_loopVariable.bind fun v => scans_expectEndOfStatement.bind fun _ => ?_
  constructor
  case leads =>
    refine Leads.look fun found => ?_
    rcases found with _ | ⟨address, frame⟩
    · exact leads_impossible _
    cases frame with
    | gosub => exact leads_impossible _
    | loop counter terminal step line pos =>
      intro s hs hp
      obtain ⟨before, after, rfl, rfl, hv, hb⟩ := hs.stack.findLoop_eq_some hp.2
      have hstored := hs.stored counter (s.interpreter.memory.value counter + step)
      refine Ends.after_ok (lookIn_of_ok (Memory.fetch_eq hs.layout counter))
        (Ends.after_ok (onMemory_of_ok (Memory.store_eq counter _ hs.layout)) ?_)
      -- The variable has been stored before the bound is looked at, so it is one step further
      -- either way.
      cases hr : repeats step (s.interpreter.memory.value counter + step) terminal with
      | true =>
        refine ⟨s.interpreter, .refl s, ⟨_, .again (.refl _) rfl hv hb hr⟩, Or.inr ⟨rfl, ?_⟩,
          by decide⟩
        exact ⟨.loop counter terminal step line pos,
          List.mem_append_right _ List.mem_cons_self, rfl, rfl⟩
      | false =>
        have hpast := onMemory_of_ok (s := s.withMemory _) (Memory.unwindPast_eq hstored.stack)
        rw [if_neg Bool.false_ne_true]
        refine Ends.of_ok ((bind_of_ok hpast).trans rfl) ⟨s.interpreter, .refl s, ?_⟩
        exact Effect.turns (.leave (.refl _) rfl hv hb hr) rfl (by decide)
  case tracks =>
    refine .similar (S := FoundAlike) (fun _ => rfl) (fun i j hi => ?_)
      fun found found' hfound => ?_
    · exact Memory.map_findLoop hi.1.running.stack hi.1.sound'.stack v
    obtain ⟨rfl, rfl⟩ | ⟨frame, address, address', rfl, rfl⟩ := hfound.exists_frame
    · exact tracks_notFound _ fun _ _ hi => hi.1.1
    cases frame with
    | gosub => exact tracks_notFound _ fun _ _ hi => hi.1.1
    | loop counter terminal step line pos =>
      refine (tracks_lookIn fun i j hi => ?_).bind fun x => ?_
      · obtain ⟨⟨hstep, -⟩, -⟩ := hi
        obtain ⟨hm, hm'⟩ := hstep.layouts
        exact ⟨_, Memory.fetch_eq hm counter, (Memory.fetch_eq hm' counter).trans
          (congrArg Except.ok (C.value_eq hstep.memory hm counter))⟩
      refine Tracks.bind (tracks_store (P := FoundAt C exact l
        (.loop counter terminal step line pos) address address') fun i j hi => ?_) fun _ => ?_
      · obtain ⟨⟨⟨hstep, -⟩, hfound, hfound'⟩, -⟩ := hi
        exact ⟨hstep.layouts, (foundAt_loop hstep hfound hfound').stored _ _⟩
      refine tracks_ite (fun _ => ?_) fun _ => ?_
      · refine (tracks_goBackTo fun _ _ hi => hi).bind fun _ => ?_
        refine (tracks_resume fun _ _ hi => hi).bind fun _ => ?_
        exact tracks_pure fun _ _ hi => hi
      · refine (tracks_drop fun _ _ hi => hi).bind fun popped => ?_
        refine (tracks_notePopped popped).bind fun _ => ?_
        exact tracks_pure fun _ _ hi => hi

theorem walks_loop :
    Carries R C exact word l frames pre (loop : Act σ Phase) (loop : Act τ Phase) := by
  refine scans_readVariable.bind fun v => ?_
  refine (scans_expect (by decide) (by decide) _).bind fun _ => ?_
  refine scans_expression.bind fun initial => .cursor fun c c' hc => ?_
  obtain ⟨found, c₁, c₁', ht, ht', hlike⟩ := Cursor.Like.exists_read (hc.token LoopBound.vocabulary)
  have hskips : c.Skips c₁ := .token (by decide) ht
  rw [ht, ht']
  cases found with
  | none =>
    refine walks_fail (by rw [hlike.pos_eq]) fun i hi _ => ?_
    exact Interpreter.ahead_of_within hskips.within hi.2
  | some bound =>
    cases bound
    refine .goTo hlike hskips (scans_expression.bind fun terminal => ?_)
    refine scans_loopStep.bind fun step => scans_expectEndOfStatement.bind fun _ => ?_
    refine .look (fun i j hi => ?_) fun frame => ?_
    · rw [hi.currentLine_eq, hi.textPos_eq]
    constructor
    case leads =>
      refine leads_pushFrame fun s hs hp hroom => ?_
      obtain ⟨he, hf⟩ := hp
      have hsavable : frame.Savable := hf ▸ hs.savable hs.inside
      obtain ⟨journal, hbegun⟩ := begin_of_room v initial hs hsavable hroom
      rw [bind_of_ok (pushFrame_of_room hroom hs.layout)] at hbegun
      refine Ends.of_ok hbegun ⟨s.interpreter, .refl s, ?_⟩
      subst hf
      exact Effect.turns (.loop (j := s.interpreter) v initial terminal step (.refl _) he hroom) rfl
        (by decide)
    case tracks =>
      refine (tracks_pushFrame fun i j hi => ⟨hi.1, ?_⟩).bind fun _ => ?_
      · exact hi.2.2 ▸ hi.1.running.savable hi.1.running.inside
      refine Tracks.bind (tracks_store (P := fun i j => Abreast C exact i j .proceed)
        fun i j hi => ?_) fun _ => tracks_pure fun _ _ hi => hi
      · obtain ⟨⟨hcoupled, hplace⟩, hsound⟩ := hi
        exact ⟨hcoupled.layouts hsound.layout, hcoupled.stored hsound.layout v initial, hplace⟩

theorem walks_poke :
    Carries R C exact word l frames pre (poke : Act σ Phase) (poke : Act τ Phase) := by
  refine scans_expression.bind fun _ => ?_
  refine (scans_expect (by decide) (by decide) _).bind fun _ => ?_
  refine scans_expression.bind fun _ => ?_
  refine scans_expectEndOfStatement.bind fun _ => ?_
  exact .note _ _ (walks_pass (by decide))

theorem walks_reseed :
    Carries R C exact word l frames pre (reseed : Act σ Phase) (reseed : Act τ Phase) := by
  refine scans_expression.bind fun seed => scans_expectEndOfStatement.bind fun _ => .note _ _ ?_
  constructor
  case leads =>
    intro s _ _
    have hread : s.interpreter.ReadOn
        { s.interpreter with generator := s.interpreter.generator.reseed seed.toInt64.toUInt64 } :=
      .of_within (.refl _) _
    exact ⟨s.interpreter, .refl s, Effect.turns (.pass hread (by decide)) rfl (by decide)⟩
  case tracks =>
    refine Tracks.bind (P := fun _ => InStep C exact l frames) (tracks_change
      (f := fun i => { i with generator := i.generator.reseed seed.toInt64.toUInt64 })
      (fun _ => .refl _) (fun _ => rfl) (fun _ => rfl) fun i j hi => ?_)
      fun _ => tracks_pure fun _ _ hi => hi.proceed
    have hread := hi.1.readOn (.refl _) (i.generator.reseed seed.toInt64.toUInt64)
    have hpos : i.cursor.pos = j.textPos := hi.1.textPos_eq.symm
    rw [hi.1.generator_eq]
    exact hpos ▸ hread

/-- The one statement that does not keep the program. -/
theorem walks_newProgram :
    Walks R C exact (some .new) l frames pre (Does (some .new) l frames)
      (fun phase i j => Abreast C exact i j phase) (newProgram : Act σ Phase)
      (newProgram : Act τ Phase) := by
  refine scans_expectEndOfLine.bind fun _ => ?_
  constructor
  case leads =>
    intro s _ _
    refine ⟨s.interpreter, .refl s, fun h => absurd rfl h, fun _ => ?_, Or.inl rfl,
      Or.inl (by decide)⟩
    exact ⟨rfl, s.interpreter, .refl _, rfl⟩
  case tracks =>
    refine Tracks.bind (P := fun _ i j => Coupled C exact i j ∧ i.memory.Layout)
      (tracks_onMemory .clearProgram fun i j hi => ?_) fun _ => ?_
    · have hcoupled := hi.1.toCoupled.withMemory (f := fun m => { m with programEnd := 0 })
        (g := fun m => { m with programEnd := 0 }) (C.unlined hi.1.memory) fun _ => rfl
      exact ⟨(), _, _, rfl, rfl, hcoupled, hi.1.running.toSound.unlined.layout⟩
    · refine (tracks_clearStack fun i j hi => hi.1.unstacked hi.2).bind fun _ => ?_
      exact tracks_pure fun _ _ hi => hi

/-- The one statement that asks for something. -/
theorem walks_input :
    Walks R C exact (some .input) l frames pre (Does (some .input) l frames)
      (fun phase i j => Abreast C exact i j phase) (input : Act σ Phase) (input : Act τ Phase) := by
  refine scans_readVariable.bind fun v => scans_expectEndOfStatement.bind fun _ =>
    .look (fun _ _ hi => hi.textPos_eq) fun pos => walks_pure ?_ ?_
  · rintro i ⟨he, rfl⟩
    refine ⟨fun _ => ⟨frames, .ask v (.refl i) he⟩, fun hnew => ?_, Or.inl rfl,
      Or.inr ⟨rfl, v, i.textPos, rfl⟩⟩
    cases hnew
  · rintro i j hi ⟨-, rfl⟩
    exact ⟨hi.toCoupled, hi.shares⟩

section
variable [Host τ] (hR : Mirrors R)
include hR

section
variable (hw : word = some .list ∨ word = some .mem)
include hw

theorem walks_list :
    Carries R C exact word l frames pre (list : Act σ Phase) (list : Act τ Phase) := by
  refine .cursor fun c c' hc => ?_
  obtain ⟨number, c₁, c₁', hn, hn', hlike⟩ := Cursor.Like.exists_read hc.lineNumber
  have hskips := Cursor.Skips.lineNumber c
  rw [hn] at hskips
  rw [hn, hn']
  refine .goTo hlike hskips (scans_expectEndOfLine.bind fun _ =>
    .lookUp (fun m hm => Memory.linesFrom_eq hm.layout hm.holds _) fun lines => ?_)
  have htold : Scans R C exact word l frames (fun _ _ => True) (printLines lines : Act σ Unit)
      (printLines lines : Act τ Unit) :=
    .of (Prints.reads (p := .told _) (prints_printLines lines) hw rfl)
      (tracks_printLines hR (fun _ _ hi => hi) lines)
  exact htold.bind fun _ => walks_pass (by decide)

/-- How much is free is the same in both if the buffers are of one size. -/
theorem walks_printMemory (hmeters : C.Meters) :
    Carries R C exact word l frames pre (printMemory : Act σ Phase)
      (printMemory : Act τ Phase) := by
  have htold {bytes : List UInt8} {act : Act σ Unit} (h : Prints bytes act) :
      Reads word l frames (fun _ _ => True) act :=
    Prints.reads (p := .told bytes) h hw rfl
  have hfree : Reads word l frames (fun _ _ => True) (printFree : Act σ Unit) :=
    Leads.lookIn (fun i hi => ⟨_, hi.layout.free_eq⟩) fun free =>
      (htold (prints_print (Decimal.digits free))).bind fun _ => htold (prints_printLine _)
  have hscans : Scans R C exact word l frames (fun _ _ => True) (printFree : Act σ Unit)
      (printFree : Act τ Unit) :=
    .of hfree (tracks_printFree hR (fun _ _ hi => hi) fun _ _ hi =>
      ⟨hi.running.layout, C.free_eq hmeters hi.memory⟩)
  exact hscans.bind fun _ => walks_pass (by decide)

end

section
variable (hw : word = some .print ∨ word = some .printSign)
include hw

theorem scans_newline :
    Scans R C exact word l frames (fun _ _ => True) (newline : Act σ Unit)
      (newline : Act τ Unit) :=
  .of (Prints.reads (p := .newline) (prints_writeByte _) hw rfl)
    (tracks_newline hR fun _ _ hi => hi)

omit hR in
omit [Host τ] in
/-- A string is shown before it is passed. -/
theorem leads_literal {c after : Cursor} {chars : List UInt8}
    (h : c.skipBlanks.quoted? = some (chars, after)) :
    Leads word l frames (fun i => pre i ∧ i.cursor = c) (reading fun _ _ => True) (do
      print chars
      goTo after.skipBlanks : Act σ Unit) := by
  obtain ⟨quote, hq, hc, hliteral⟩ := Cursor.passed_of_quoted? h
  obtain ⟨before, hbefore, hskip⟩ := Cursor.Skips.skipBlanks c
  obtain ⟨behind, hbehind, hskip'⟩ := Cursor.Skips.skipBlanks after
  have hfront := hskip.trans hliteral
  have hall := hfront.trans hskip'
  rintro s - ⟨-, rfl⟩
  refine Ends.bind ((prints_print chars s).mono (fun _ _ h => h) fun cause t h => ?_)
    fun _ t h => ?_
  · -- The host failed in the midst of the string.
    obtain ⟨hi, e, rfl, hfailed⟩ := h
    refine ⟨hi ▸ .refl _, trivial, fun _ he => Halt.noConfusion he,
      [.code before hbefore, .literal quote chars hq hc], by simp [Piece.Of, hw], ?_, ?_⟩
    · rw [hfront.rest_eq]
      simp [Piece.source]
    · simpa [Piece.shown, WroteUntil] using hfailed
  · obtain ⟨hi, hwrote⟩ := h
    refine Ends.of_ok (goTo_eq _ _) ⟨{ s.interpreter with textPos := after.skipBlanks.pos },
      ⟨.of_within hall.within _, [.code before hbefore, .literal quote chars hq hc,
        .code behind hbehind], by simp [Piece.Of, hw], ?_, ?_⟩, ?_, trivial⟩
    · rw [Interpreter.cursor_of_passed hall rfl]
      simpa [Piece.source] using hall
    · show Wrote _ s.host t.host
      simpa [Piece.shown] using hwrote
    · rw [← hi]
      rfl

theorem scans_printItem :
    Scans R C exact word l frames (fun _ _ => True) (printItem : Act σ Unit)
      (printItem : Act τ Unit) := by
  refine .cursor fun c c' hc => ?_
  have hskip := hc.skipBlanks
  dsimp only
  cases hq : c.skipBlanks.quoted? with
  | some found =>
    obtain ⟨chars, after⟩ := found
    obtain ⟨after', hq', hafter⟩ := hskip.quoted?_eq_some hq
    rw [hq']
    refine ⟨leads_literal hw hq, ?_⟩
    refine (tracks_print hR (fun _ _ hi => hi.1) chars).bind fun _ => ?_
    have hpast : c.Within after.skipBlanks := c.skipBlanks_within.trans
      ((Cursor.quoted?_within hq).trans (Cursor.skipBlanks_within _))
    refine (Tracks.goTo (g := pure ()) (k := pure ()) hafter.skipBlanks hpast
      (tracks_pure fun _ _ hi => ⟨hi.1, trivial⟩)).mono (fun _ _ hi => ⟨hi.1, hi.2.2⟩)
      (fun _ _ _ hi => hi) fun _ _ hi => hi
  | none =>
    rw [hskip.quoted?_eq_none hq]
    simp only [hskip.peek_eq, hskip.pos_eq, fail_bind]
    refine walks_ite (fun _ => ?_) fun _ => ?_
    · exact walks_fail rfl fun i hi _ => Interpreter.ahead_of_within c.skipBlanks_within hi.2
    · refine .goTo hskip (.skipBlanks c) (scans_expression.bind fun x => ?_)
      exact Scans.of (Prints.reads (p := .value x) (prints_print _) hw rfl)
        (tracks_print hR (fun _ _ hi => hi) _)

theorem walks_printItems (items : Nat) (joined : Bool) :
    Carries R C exact word l frames pre (printItems items joined : Act σ Phase)
      (printItems items joined : Act τ Phase) := by
  induction items generalizing joined pre with
  | zero => exact walks_pass (by decide)
  | succ items ih =>
    refine (scans_printItem hR hw).bind fun _ => .cursor fun c c' hc => ?_
    have hskip := hc.skipBlanks
    have hadvance {b : UInt8} (hb : b ≠ Byte.marker) (hq : Byte.isQuote b = false)
        (hpeek : c.skipBlanks.peek = b) : c.Skips c.skipBlanks.advance :=
      (Cursor.Skips.skipBlanks c).trans (.advance hb hq hpeek)
    dsimp only
    simp only [hskip.peek_eq, hskip.pos_eq, hskip.atEndOfStatement_eq]
    refine walks_ite (fun hcomma => ?_) fun _ => walks_ite (fun hsemicolon => ?_) fun _ =>
      walks_ite (fun _ => ?_) fun _ => ?_
    · have hlike := hskip.advance (hcomma ▸ by decide)
      exact .goTo hlike (hadvance (by decide) (by decide) hcomma) (ih joined)
    · have hlike := (hskip.advance (hsemicolon ▸ by decide)).skipBlanks
      have hskips := (hadvance (by decide) (by decide) hsemicolon).trans (.skipBlanks _)
      simp only [hlike.atEndOfStatement_eq]
      exact .goTo hlike hskips (walks_ite (fun _ => walks_pass (by decide)) fun _ => ih true)
    · refine .goTo hskip (.skipBlanks c) ?_
      cases joined with
      | true => exact walks_pass (by decide)
      | false => exact (scans_newline hR hw).bind fun _ => walks_pass (by decide)
    · exact walks_fail rfl fun i hi _ => Interpreter.ahead_of_within c.skipBlanks_within hi.2

theorem walks_printList :
    Carries R C exact word l frames pre (printList : Act σ Phase) (printList : Act τ Phase) := by
  refine .cursor fun c c' hc => ?_
  have hskip := hc.skipBlanks
  dsimp only
  simp only [hskip.peek_eq, hskip.atEndOfLine_eq, hskip.rest_eq]
  have hends {phase : Phase} {pre : Interpreter → Prop}
      (hp : phase ∈ [Phase.proceed, .nextLine, .restart, .bye]) :
      Carries R C exact word l frames pre (newline >>= fun _ => pure phase : Act σ Phase)
        (newline >>= fun _ => pure phase : Act τ Phase) :=
    (scans_newline hR hw).bind fun _ => walks_pass hp
  refine walks_ite (fun hcolon => ?_) fun _ => walks_ite (fun _ => ?_) fun _ => ?_
  · refine .goTo (hskip.advance (hcolon ▸ by decide)) ?_ (hends (by decide))
    exact (Cursor.Skips.skipBlanks c).trans (.advance (by decide) (by decide) hcolon)
  · exact hends (by decide)
  · exact walks_printItems hR hw _ _

end

/-- What a statement does, in one session and in two. `MEM` shows how much is free, which two
buffers need not share. -/
theorem walks_dispatch (hmeters : word = some .mem → C.Meters) :
    Walks R C exact word l frames pre (Does word l frames)
      (fun phase i j => Abreast C exact i j phase) (dispatch word : Act σ Phase)
      (dispatch word : Act τ Phase) := by
  have hturns {act : Act σ Phase} {act' : Act τ Phase}
      (h : Carries R C exact word l frames pre act act') (hnew : word ≠ some .new) :
      Walks R C exact word l frames pre (Does word l frames)
        (fun phase i j => Abreast C exact i j phase) act act' :=
    h.mono (fun _ hi => hi) (fun _ _ _ ht => ht.does hnew) fun _ _ _ hi => hi
  cases word with
  | none => exact hturns walks_assign (by decide)
  | some found =>
    cases found with
    | assign => exact hturns walks_assign (by decide)
    | list => exact hturns (walks_list hR (Or.inl rfl)) (by decide)
    | load | save | remark | remarkSign | bye => exact hturns (walks_pass (by decide)) (by decide)
    | new => exact walks_newProgram
    | run => exact hturns walks_run (by decide)
    | next => exact hturns walks_next (by decide)
    | branch => exact hturns walks_branch (by decide)
    | goto => exact hturns walks_goto (by decide)
    | gosub => exact hturns walks_gosub (by decide)
    | goBack => exact hturns walks_goBack (by decide)
    | loop => exact hturns walks_loop (by decide)
    | input => exact walks_input
    | print => exact hturns (walks_printList hR (Or.inl rfl)) (by decide)
    | printSign => exact hturns (walks_printList hR (Or.inr rfl)) (by decide)
    | poke => exact hturns walks_poke (by decide)
    | stop | finish => exact hturns walks_finish (by decide)
    | mem => exact hturns (walks_printMemory hR (Or.inr rfl) (hmeters rfl)) (by decide)
    | reseed => exact hturns walks_reseed (by decide)

end

theorem leads_dispatch :
    Leads word l frames pre (Does word l frames) (dispatch word : Act σ Phase) :=
  (@walks_dispatch σ σ _ Eq (.twin 0) True word l frames pre _ Mirrors.refl fun _ => trivial).leads

theorem drifts_dispatch (word : Option Keyword) : Drifts (dispatch word : Act σ Phase) :=
  (@walks_dispatch σ σ _ Eq (.twin 0) True word .empty [] (fun _ => True) _ Mirrors.refl
    fun _ => trivial).tracks.drifts

/-- The items are never used up: where they are more than the bytes that are left, one more prints
the same. -/
theorem printItems_succ {s : Session σ} {items : Nat} {joined : Bool}
    (hs : s.interpreter.Running l frames) (h : s.interpreter.cursor.rest.length < items) :
    printItems (items + 1) joined s = printItems items joined s := by
  induction items generalizing s joined with
  | zero => exact absurd h (Nat.not_lt_zero _)
  | succ items ih =>
    unfold printItems
    cases hr : printItem s with
    | error e t => rw [bind_of_error hr, bind_of_error hr]
    | ok u t =>
      have hitems : Reads (some .print) l frames (fun _ _ => True) (printItem : Act σ Unit) :=
        (@scans_printItem σ σ _ Eq (.twin 0) True _ l frames _ Mirrors.refl (Or.inl rfl)).leads
      have hitem := hitems.past hs
      rw [hr] at hitem
      have hread := hitem.1.readOn
      have ht := hread.running hs
      have hleft := hread.within.pos_add_length_rest
      -- What follows a separator begins at least one byte further on.
      have hfurther {c : Cursor} (joined : Bool) (hc : t.interpreter.cursor.Within c)
          (hpos : t.interpreter.cursor.pos < c.pos) :
          printItems (items + 1) joined (t.movedTo c.pos) = printItems items joined
            (t.movedTo c.pos) := by
        refine ih ((Interpreter.ReadOn.of_within hc _).running ht) ?_
        rw [cursor_movedTo hc]
        have hsame := hc.pos_add_length_rest
        have hle := hread.within.le
        omega
      have hblanks := t.interpreter.cursor.skipBlanks_within
      rw [bind_of_ok hr, bind_of_ok hr, bind_of_ok (cursor_eq t), bind_of_ok (cursor_eq t)]
      dsimp only
      by_cases hcomma : t.interpreter.cursor.skipBlanks.peek = byte ','
      · have hadvance := Cursor.advance_within (c := t.interpreter.cursor.skipBlanks)
          (hcomma ▸ by decide)
        rw [if_pos hcomma, if_pos hcomma, bind_of_ok (goTo_eq _ t), bind_of_ok (goTo_eq _ t)]
        exact hfurther joined (hblanks.trans hadvance) (Nat.lt_succ_of_le hblanks.le)
      · rw [if_neg hcomma, if_neg hcomma]
        by_cases hsemicolon : t.interpreter.cursor.skipBlanks.peek = byte ';'
        · have hadvance := Cursor.advance_within (c := t.interpreter.cursor.skipBlanks)
            (hsemicolon ▸ by decide)
          have hbehind := t.interpreter.cursor.skipBlanks.advance.skipBlanks_within
          rw [if_pos hsemicolon, if_pos hsemicolon, bind_of_ok (goTo_eq _ t),
            bind_of_ok (goTo_eq _ t)]
          by_cases hend : t.interpreter.cursor.skipBlanks.advance.skipBlanks.atEndOfStatement = true
          · rw [if_pos hend, if_pos hend]
          · rw [if_neg hend, if_neg hend]
            exact hfurther true ((hblanks.trans hadvance).trans hbehind)
              (Nat.lt_of_lt_of_le (Nat.lt_succ_of_le hblanks.le) hbehind.le)
        · rw [if_neg hsemicolon, if_neg hsemicolon]

theorem skips_keyword {c c' : Cursor} (h : c.token Keyword.vocabulary = (word, c'))
    (hw : word ≠ some .remarkSign) : c.Skips c' := by
  have hplain : ∀ entry ∈ Keyword.vocabulary, entry.2 ≠ .remarkSign → Unquoted (ascii entry.1) := by
    decide
  cases h
  refine .moveTo (Passes.token_of rfl fun spelling token hm ht => hplain (spelling, token) hm
    fun he => hw ?_)
  rw [ht, show token = .remarkSign from he]

/-- What a statement does, for every keyword but the sign of a remark, the text of which is not
read. -/
theorem leads_statement (hw : word ≠ some .remarkSign) :
    Leads word l frames (fun i => i.keyword = word) (Does word l frames)
      (statement : Act σ Phase) := by
  refine Leads.cursor fun c => ?_
  rcases hc : c.token Keyword.vocabulary with ⟨found, c'⟩
  by_cases hfound : found = word
  case neg =>
    rintro s - ⟨hk, rfl⟩
    exact absurd ((congrArg Prod.fst hc).symm.trans hk) hfound
  subst hfound
  exact Leads.goTo (fun i hi => hi.2 ▸ skips_keyword hc hw) (Leads.note _ leads_dispatch)

/-- A remark sign does nothing, and no statement follows it in its line. -/
theorem statement_remarkSign {s : Session σ} (hk : s.interpreter.keyword = some .remarkSign) :
    ∃ t, statement s = .ok .nextLine t ∧ t.host = s.host ∧
      s.interpreter.ReadOn t.interpreter := by
  rcases hc : s.interpreter.cursor.token Keyword.vocabulary with ⟨found, c⟩
  obtain rfl : found = some .remarkSign := (congrArg Prod.fst hc).symm.trans hk
  refine ⟨(s.movedTo c.pos).noted (.statement (some .remarkSign) c.pos), ?_, rfl,
    .of_within (token_within_of_eq hc) _⟩
  unfold statement
  rw [bind_of_ok (cursor_eq s), hc]
  rfl

/-- What a statement has done that has gone through. -/
structure Did (l : Listing) (frames : List Frame) (s : Session σ) (phase : Phase) (t : Session σ) :
    Prop where
  kept : s.interpreter.keyword ≠ some .new →
    ∃ frames', Effect l frames s.interpreter phase frames' t.interpreter
  cleared : s.interpreter.keyword = some .new → Cleared s.interpreter phase t.interpreter
  onwards : phase.Onwards ∨
    s.interpreter.keyword = some .input ∧ ∃ v resume, phase = .ask (.reply v resume)
  wrote : ∃ bytes, Wrote bytes s.host t.host

theorem statement_ends {s : Session σ} (hs : s.interpreter.Running l frames) :
    Ends (statement s) (Did l frames s) (Stops s.interpreter.keyword s) := by
  by_cases hk : s.interpreter.keyword = some .remarkSign
  · obtain ⟨t, hrun, hhost, hread⟩ := statement_remarkSign hk
    refine Ends.of_ok hrun ⟨fun _ => ⟨frames, .pass hread (by decide)⟩, fun hnew => ?_,
      Or.inl (by decide), [], hhost ▸ .nil _⟩
    rw [hk] at hnew
    cases hnew
  · refine (leads_statement hk s hs rfl).mono (fun phase t h => ?_) fun _ _ h => h
    obtain ⟨j, hpast, hdoes⟩ := h
    refine ⟨fun hkeep => ?_, fun hnew => (hdoes.cleared hnew).of_readOn hpast.readOn,
      hdoes.onwards, ?_⟩
    · obtain ⟨frames', he⟩ := hdoes.kept hkeep
      exact ⟨frames', he.of_readOn hpast.readOn⟩
    · obtain ⟨pieces, -, -, hwrote⟩ := hpast.exists_pieces
      exact ⟨_, hwrote⟩

theorem tracks_statement [Host τ] (hR : Mirrors R) : Tracks R exact
    (fun i j => InStep C exact l frames i j ∧ (i.keyword = some .mem → C.Meters))
    (fun phase i j => Abreast C exact i j phase) (InStep C exact l frames) (statement : Act σ Phase)
    (statement : Act τ Phase) := by
  refine .similar (f := Interpreter.cursor) Cursor.Like.refl (fun _ _ h => h.1.like) fun c c' hc =>
    ?_
  obtain ⟨found, c₁, c₁', ht, ht', hlike⟩ := Cursor.Like.exists_read (hc.token Keyword.vocabulary)
  rw [ht, ht']
  by_cases hmeters : found = some .mem → C.Meters
  · refine Tracks.mono (?_ : Tracks R exact (At C exact l frames c) _ _ _ _)
      (fun _ _ h => ⟨h.1.1, h.2.1⟩) (fun _ _ _ h => h) fun _ _ h => h
    refine .goTo hlike (token_within_of_eq ht) ((tracks_note _ _).bind fun _ => ?_)
    exact (walks_dispatch hR hmeters).tracks
  · -- A `MEM` is executed only where both have the same room.
    refine tracks_never ((Drifts.goTo c₁).bind fun _ => (Drifts.note _).bind
      fun _ => drifts_dispatch _) ?_
    rintro i j ⟨⟨-, hm⟩, hi, -⟩
    exact hmeters fun hfound => hm (by rw [Interpreter.keyword, hi, ht, hfound])

end LineBasic.Session
