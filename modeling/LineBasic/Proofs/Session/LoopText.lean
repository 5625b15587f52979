import LineBasic.Proofs.Memory.Kin
import LineBasic.Proofs.PrintList
import LineBasic.Proofs.Session.Repetition

namespace LineBasic

namespace Phrase

def endsWithVariable : {rank : Rank} → Phrase rank → Bool
  | _, var _ => true
  | _, number _ => false
  | _, call _ _ => false
  | _, group _ => false
  | _, negate p => p.endsWithVariable
  | _, single p => p.endsWithVariable
  | _, factor _ _ p => p.endsWithVariable
  | _, unsigned t => t.endsWithVariable
  | _, signed _ t => t.endsWithVariable
  | _, joined _ _ t => t.endsWithVariable
  | _, plain a => a.endsWithVariable
  | _, compared _ _ right => right.endsWithVariable

/-- A phrase ends before a word if a variable at its end is set apart from the word. -/
theorem endsAt_of_isUpper {rank : Rank} (p : Phrase rank) {b : UInt8} {rest : List UInt8}
    (hb : Byte.isUpper b = true) (h : p.endsWithVariable = false) : p.EndsAt (b :: rest) := by
  induction p with
  | number n =>
    exact Expr.begins_cons (Bool.not_eq_true' _ ▸ Bool.eq_false_iff.2 (not_isDigit_of_isUpper hb))
  | var v => cases h
  | call f argument ih => trivial
  | group inner ih => trivial
  | negate p ih => exact ih h
  | single p ih => exact ih h
  | factor t sign p iht ihp => exact ihp h
  | unsigned t ih => exact ih h
  | signed sign t ih => exact ih h
  | joined a sign t iha iht => exact iht h
  | plain a ih => exact ih h
  | compared left sign right ihl ihr => exact ihr h

end Phrase

theorem Expr.stopsRelation_of_isUpper {b : UInt8} (h : Byte.isUpper b = true) :
    stopsRelation b = true := by
  have hne {c : UInt8} (hc : Byte.isUpper c = false) : b ≠ c := by
    rintro rfl
    rw [hc] at h
    cases h
  simp [stopsRelation, stopsAdditive, stopsTerm, stopsSign, factorOperator?, signOperator?,
    hne (c := byte '*') rfl, hne (c := byte '%') rfl, hne (c := byte '/') rfl,
    hne (c := byte '-') rfl, hne (c := byte '+') rfl, hne (c := byte '<') rfl,
    hne (c := byte '>') rfl, hne (c := byte '=') rfl, hne (c := byte '!') rfl]

theorem Expr.begins_behind (blanks : Blanks) {b : UInt8} {rest : List UInt8}
    (h : stopsPrimary b = true) :
    Begins (!Byte.isUpper ·) (blanks.val ++ b :: rest) := by
  have hbegins : Begins (orBlank stopsPrimary) (blanks.val ++ b :: rest) := by
    apply Begins.orBlank
    rw [Lexeme.skipBlanks_append blanks.property, skipBlanks_cons (not_isBlank_of_stopsPrimary h)]
    exact begins_cons h
  exact hbegins.mono fun c hc => Bool.not_eq_true' _ ▸ Bool.eq_false_iff.2
    (not_isUpper_of_orBlank hc)

theorem Lexeme.skipBlanks_of_isUpper {b : UInt8} (h : Byte.isUpper b = true) (rest : List UInt8) :
    skipBlanks (b :: rest) = b :: rest :=
  Expr.skipBlanks_cons
    (Expr.not_isBlank_of_opensAdditive (opensAdditive_of_opensPrimary (opensPrimary_of_isUpper h)))
      rest

/-- An expression of a statement, spelled with blanks where they are skipped, and the blanks around
it. -/
structure Operand where
  before : Blanks
  phrase : Phrase .relation
  text : List UInt8
  spaced : phrase.Spaced false text
  after : Blanks

namespace Operand

def source (o : Operand) : List UInt8 :=
  o.before.val ++ (o.text ++ o.after.val)

def Parted (o : Operand) : Prop :=
  o.phrase.endsWithVariable = true → o.after.val ≠ []

def ReadBefore (o : Operand) (after : List UInt8) : Prop :=
  (Expr.readRelation (o.text ++ (o.after.val ++ after))).parts =
    (o.phrase.expr false, o.phrase.left (o.after.val ++ after))

theorem readBefore_of_ended (o : Operand) {after : List UInt8} (h : Expr.Ended after) :
    o.ReadBefore after :=
  h.parts_readRelation o.spaced o.after.property

theorem Parted.readBefore {o : Operand} (h : o.Parted) {b : UInt8} {rest : List UInt8}
    (hb : Byte.isUpper b = true) : o.ReadBefore (b :: rest) := by
  have hskip : Lexeme.skipBlanks (o.after.val ++ b :: rest) = b :: rest := by
    rw [Lexeme.skipBlanks_append o.after.property, Lexeme.skipBlanks_of_isUpper hb]
  have hends : o.phrase.EndsAt (o.after.val ++ b :: rest) := by
    cases hblanks : o.after.val with
    | nil =>
      refine o.phrase.endsAt_of_isUpper hb (Bool.eq_false_iff.2 fun hv => ?_)
      exact h hv hblanks
    | cons c blanks =>
      have hc : Byte.isBlank c = true := o.after.property c (hblanks ▸ List.mem_cons_self)
      apply o.phrase.endsAt_of_begins
      exact Expr.begins_cons (Bool.or_eq_true_iff.2 (Or.inl hc))
  exact o.spaced.readable _ hends (hskip.symm ▸ Expr.begins_cons (Expr.stopsRelation_of_isUpper hb))

theorem skipBlanks_text (o : Operand) (rest : List UInt8) :
    Lexeme.skipBlanks (o.text ++ rest) = o.text ++ rest :=
  o.spaced.skipBlanks_append rest

end Operand

/-- `FOR V=a TO t STEP s` with any blanks between its tokens. The step may be left out. -/
structure LoopText where
  before : Blanks
  gap : Blanks
  counter : Variable
  after : Blanks
  initial : Operand
  terminal : Operand
  step : Option Operand
  initial_parted : initial.Parted
  terminal_parted : step.isSome = true → terminal.Parted

namespace LoopText

def stepSource : Option Operand → List UInt8
  | none => []
  | some o => ascii "STEP" ++ o.source

def bounds (t : LoopText) : List UInt8 :=
  t.counter.letter :: (t.after.val ++ (byte '=' :: (t.initial.source ++
    (ascii "TO" ++ (t.terminal.source ++ stepSource t.step)))))

def source (t : LoopText) : List UInt8 :=
  t.before.val ++ (ascii "FOR" ++ (t.gap.val ++ t.bounds))

def reckonStep (s : Surroundings) : Option Operand → Reckoning
  | none => pure 1
  | some o => o.phrase.reckon s false

/-- The initial value, the bound and the step, reckoned one after the other. -/
def reckon (s : Surroundings) (t : LoopText) :
    EStateM Diagnostic Generator (Int16 × Int16 × Int16) := do
  let initial ← t.initial.phrase.reckon s false
  let terminal ← t.terminal.phrase.reckon s false
  let step ← reckonStep s t.step
  return (initial, terminal, step)

/-- The frame that is pushed where this text stands at the position. It saves the place behind the
text. -/
def frame (t : LoopText) (i : Interpreter) (terminal step : Int16) : Frame :=
  .loop t.counter terminal step i.currentLine (i.textPos + t.source.length)

end LoopText

namespace Cursor
variable {c : Cursor} {b : UInt8} {text after : List UInt8} {before behind : Blanks}

theorem token_skipBlanks {τ : Type} (c : Cursor) (vocabulary : Vocabulary τ) :
    c.skipBlanks.token vocabulary = c.token vocabulary := by
  have hmoved : c.skipBlanks.token vocabulary =
      ((Lexeme.token vocabulary c.rest).1, c.skipBlanks.moveTo
        (Lexeme.token vocabulary c.rest).2) := by
    rw [← LineBasic.token_skipBlanks, ← c.rest_skipBlanks]
    rfl
  have hle := (Lexeme.skipBlanks_suffix c.rest).length_le
  have hafter := (Lexeme.token_suffix vocabulary (Lexeme.skipBlanks c.rest)).length_le
  rw [LineBasic.token_skipBlanks] at hafter
  have hpos : c.skipBlanks.pos +
    (c.skipBlanks.rest.length - (Lexeme.token vocabulary c.rest).2.length) =
      c.pos + (c.rest.length - (Lexeme.token vocabulary c.rest).2.length) := by
    rw [c.rest_skipBlanks]
    show c.pos + (c.rest.length - (Lexeme.skipBlanks c.rest).length) + _ = _
    omega
  rw [hmoved]
  exact congrArg (fun pos => ((Lexeme.token vocabulary c.rest).1, Cursor.mk c.text pos)) hpos

theorem token_of_rest {τ : Type} {vocabulary : Vocabulary τ} {word : List UInt8} {t : τ}
    (hrest : c.rest = before.val ++ (word ++ (behind.val ++ after)))
    (hword : Lexeme.skipBlanks (word ++ (behind.val ++ after)) = word ++ (behind.val ++ after))
    (hfind : vocabulary.find? (word ++ (behind.val ++ after)) = some (t, word.length))
    (hafter : Lexeme.skipBlanks after = after) :
    c.token vocabulary = (some t, c.past (before.val ++ (word ++ behind.val))) := by
  have htoken : Lexeme.token vocabulary c.rest = (some t, after) := by
    rw [Lexeme.token, hrest, Lexeme.skipBlanks_append before.property, hword, hfind]
    dsimp only
    rw [List.drop_left, Lexeme.skipBlanks_append behind.property, hafter]
  have hpassed : c.rest = (before.val ++ (word ++ behind.val)) ++ after := by
    rw [hrest, List.append_assoc, List.append_assoc]
  rw [token, htoken]
  exact congrArg (Prod.mk (some t)) (moveTo_eq_past hpassed)

theorem expect_of_rest (hrest : c.rest = b :: (behind.val ++ after)) (hb : Byte.isBlank b = false)
    (hafter : Lexeme.skipBlanks after = after) :
    c.expect b = (true, c.past (b :: behind.val)) := by
  have hskip : c.skipBlanks = c := by
    apply skipBlanks_eq_self
    rw [hrest]
    exact Expr.skipBlanks_cons (by rw [hb]; exact Bool.false_ne_true) _
  have hadvance : c.advance.skipBlanks = (c.past [b]).past behind.val :=
    skipBlanks_eq_past behind (@rest_past c [b] _ hrest) hafter
  rw [expect, hskip, if_pos (peek_of_rest hrest), hadvance, ← past_append]
  rfl

theorem letter_of_rest {v : Variable} (hrest : c.rest = v.letter :: (behind.val ++ after))
    (hname : Expr.Begins (!Byte.isUpper ·) (behind.val ++ after))
    (hafter : Lexeme.skipBlanks after = after) :
    c.skipBlanks.letter? = some v ∧ c.skipBlanks.advance.skipBlanks = c.past
      (v.letter :: behind.val) := by
  have hskip : c.skipBlanks = c := by
    apply skipBlanks_eq_self
    rw [hrest, Lexeme.skipBlanks_of_isUpper (isUpper_letter v)]
  have hadvance : c.advance.skipBlanks = (c.past [v.letter]).past behind.val :=
    skipBlanks_eq_past behind (@rest_past c [v.letter] _ hrest) hafter
  rw [hskip, hadvance, ← past_append, letter?, hrest]
  exact ⟨letter?_letter v hname, rfl⟩

end Cursor

/-- The second interpreter is the first one with the position at a cursor and with this generator.
-/
structure Interpreter.StandsAt (i : Interpreter) (k : Cursor) (g : Generator) (j : Interpreter) :
    Prop where
  exists_eq : ∃ pos, j = { i with textPos := pos, generator := g }
  cursor_eq : j.cursor = k

namespace Interpreter

theorem StandsAt.eq {i j : Interpreter} {k : Cursor} {g : Generator} (h : i.StandsAt k g j) :
    j = { i with textPos := k.pos, generator := g } := by
  have hpos := congrArg Cursor.pos h.cursor_eq
  obtain ⟨pos, rfl⟩ := h.exists_eq
  obtain rfl : pos = k.pos := hpos
  rfl

theorem standsAt_self (i : Interpreter) : i.StandsAt i.cursor i.generator i :=
  ⟨⟨i.textPos, rfl⟩, rfl⟩

variable {i j : Interpreter} {k c : Cursor} {g : Generator}

theorem StandsAt.readTo (h : i.StandsAt k g j) : i.ReadTo k g j :=
  ⟨h.exists_eq, congrArg Cursor.skipBlanks h.cursor_eq⟩

/-- The token that is read next is the one at the cursor. -/
theorem ReadTo.token_eq {τ : Type} (h : i.ReadTo k g j) (vocabulary : Vocabulary τ) :
    j.cursor.token vocabulary = k.token vocabulary := by
  rw [← Cursor.token_skipBlanks, h.skipped, Cursor.token_skipBlanks]

theorem ReadTo.behind {blanks : Blanks} {after : List UInt8} (h : i.ReadTo k g j)
    (hrest : k.rest = blanks.val ++ after) (hafter : Lexeme.skipBlanks after = after) :
    i.ReadTo (k.past blanks.val) g j := by
  have hskip : k.skipBlanks = k.past blanks.val := Cursor.skipBlanks_eq_past blanks hrest hafter
  refine ⟨h.exists_eq, ?_⟩
  rw [h.skipped, ← hskip, Cursor.skipBlanks_skipBlanks]

theorem ReadTo.standsAt (h : i.ReadTo k g j) (ht : c.text = k.text) :
    i.StandsAt c g { j with textPos := c.pos } := by
  have htext : c.text = i.memory.ram := ht.trans h.text_eq
  obtain ⟨pos, rfl⟩ := h.exists_eq
  refine ⟨⟨c.pos, rfl⟩, ?_⟩
  show Cursor.mk i.memory.ram c.pos = c
  rw [← htext]

end Interpreter

namespace Session
variable {σ : Type} {s : Session σ} {i : Interpreter} {k : Cursor} {g g' : Generator}
  {after : List UInt8}

open Interpreter

theorem readVariable_at {v : Variable} {behind : Blanks} (hs : i.StandsAt k g s.interpreter)
    (hrest : k.rest = v.letter :: (behind.val ++ after))
    (hname : Expr.Begins (!Byte.isUpper ·) (behind.val ++ after))
    (hafter : Lexeme.skipBlanks after = after) :
    ∃ s', readVariable s = .ok v s' ∧ i.StandsAt (k.past (v.letter :: behind.val)) g
    s'.interpreter := by
  obtain ⟨hletter, hpast⟩ := Cursor.letter_of_rest hrest hname hafter
  rw [← hs.cursor_eq] at hletter
  refine ⟨_, readVariable_eq hletter, ?_⟩
  rw [hs.cursor_eq, hpast]
  exact hs.readTo.standsAt rfl

theorem expect_at {b : UInt8} {behind : Blanks} (missing : Diagnostic)
    (hs : i.StandsAt k g s.interpreter) (hrest : k.rest = b :: (behind.val ++ after))
    (hb : Byte.isBlank b = false) (hafter : Lexeme.skipBlanks after = after) :
    ∃ s', expect b missing s = .ok () s' ∧ i.StandsAt (k.past (b :: behind.val)) g
    s'.interpreter := by
  refine ⟨s.movedTo (k.past (b :: behind.val)).pos, ?_, hs.readTo.standsAt rfl⟩
  unfold expect
  rw [bind_of_ok (cursor_eq s), hs.cursor_eq, Cursor.expect_of_rest hrest hb hafter]
  exact goTo_eq _ s

/-- An operand is worth what its phrase is worth, and is passed. -/
theorem expression_at {o : Operand} (hm : i.memory.Layout) (hs : i.StandsAt k g s.interpreter)
    (hrest : k.rest = o.text ++ (o.after.val ++ after)) (hread : o.ReadBefore after) {x : Int16}
    (hvalue : o.phrase.reckon i.memory.view false g = .ok x g') :
    ∃ s', expression s = .ok x s' ∧ i.ReadTo (k.past o.text) g' s'.interpreter := by
  obtain ⟨hexpr, hskip⟩ := Cursor.expression_of_phrase hrest hread
  have heval := (o.phrase.means_expr i.memory.view false).evaluate g
  rw [hvalue, ← hexpr, ← hs.cursor_eq] at heval
  have hread := hs.readTo
  have hrun : s.interpreter.cursor.expression.1.evaluate s.interpreter.memory.view
    s.interpreter.generator =
      (.ok x, g') := by
    rw [hread.memory_eq, hread.generator_eq]
    exact heval
  refine ⟨_, expression_ok (hread.memory_eq.symm ▸ hm) hrun, ?_⟩
  rw [hs.cursor_eq]
  exact hread.moved (c := k.expression.2) rfl hskip g'

/-- The step of a loop, 1 where none is given, with the blanks before it. -/
theorem loopStep_at (step : Option Operand) {blanks : Blanks} (hm : i.memory.Layout)
    (hs : i.ReadTo k g s.interpreter)
    (hrest : k.rest = blanks.val ++ (LoopText.stepSource step ++ after))
    (hend : EndsStatement after) {x : Int16}
    (hvalue : LoopText.reckonStep i.memory.view step g = .ok x g') :
    ∃ s', loopStep s = .ok x s' ∧
      i.ReadTo (k.past (blanks.val ++ LoopText.stepSource step)) g' s'.interpreter := by
  have hcursor := hs.token_eq LoopStep.vocabulary
  cases step with
  | none =>
    cases hvalue
    rw [LoopText.stepSource, List.nil_append] at hrest
    have hfind : LoopStep.vocabulary.find? after = none := by
      obtain rfl | hcolon := hend
      · rfl
      · obtain ⟨rest, rfl⟩ := List.head?_eq_some_iff.1 hcolon
        rfl
    have hnone : (k.token LoopStep.vocabulary).1 = none := by
      show (Lexeme.token LoopStep.vocabulary k.rest).1 = none
      rw [hrest, Lexeme.token, Lexeme.skipBlanks_append blanks.property, hend.skipBlanks_eq, hfind]
    refine ⟨s, ?_, ?_⟩
    · unfold loopStep
      rw [bind_of_ok (cursor_eq s), hcursor]
      rcases hfound : k.token LoopStep.vocabulary with ⟨found, c⟩
      rw [hfound] at hnone
      obtain rfl : found = none := hnone
      rfl
    · rw [LoopText.stepSource, List.append_nil]
      exact hs.behind hrest hend.skipBlanks_eq
  | some o =>
    have hword : k.rest =
        blanks.val ++ (ascii "STEP" ++ (o.before.val ++ (o.text ++ (o.after.val ++ after)))) := by
      rw [hrest, LoopText.stepSource, Operand.source]
      simp only [List.append_assoc]
    have htoken : k.token LoopStep.vocabulary =
        (some .stepBy, k.past (blanks.val ++ (ascii "STEP" ++ o.before.val))) :=
      Cursor.token_of_rest hword rfl rfl (o.skipBlanks_text _)
    have hmoved := hs.standsAt (c := k.past (blanks.val ++ (ascii "STEP" ++ o.before.val))) rfl
    have hleft : (k.past (blanks.val ++ (ascii "STEP" ++ o.before.val))).rest =
        o.text ++ (o.after.val ++ after) := by
      apply Cursor.rest_past
      rw [hword]
      simp only [List.append_assoc]
    obtain ⟨s', hrun, hread⟩ := expression_at (s := s.movedTo _) hm hmoved hleft
      (o.readBefore_of_ended hend.ended) hvalue
    refine ⟨s', ?_, ?_⟩
    · unfold loopStep
      rw [bind_of_ok (cursor_eq s), hcursor, htoken]
      exact (bind_of_ok (goTo_eq _ s)).trans hrun
    · have hpast := hread.behind (Cursor.rest_past hleft) hend.skipBlanks_eq
      rw [← Cursor.past_append, ← Cursor.past_append] at hpast
      simpa only [LoopText.stepSource, Operand.source, List.append_assoc] using hpast

theorem expectEndOfStatement_at (hs : i.ReadTo k g s.interpreter) (hend : EndsStatement k.rest) :
    ∃ s', expectEndOfStatement s = .ok () s' ∧ i.StandsAt k g s'.interpreter := by
  have hskip : s.interpreter.cursor.skipBlanks = k := by
    rw [hs.skipped]
    exact Cursor.skipBlanks_eq_self hend.skipBlanks_eq
  have hrun := expectEndOfStatement_eq (s := s) (hskip.symm ▸ k.atEndOfStatement_iff.2 hend)
  rw [hskip] at hrun
  exact ⟨_, hrun, hs.standsAt rfl⟩

/-- A loop whose values can be reckoned is pushed if there is room, and its variable gets the
initial value. -/
theorem loop_at {l : Listing} {frames : List Frame} {t : LoopText} {initial terminal step : Int16}
    (hi : i.Running l frames) (hk : i.cursor.Within (k.past t.bounds))
    (hs : i.StandsAt k g s.interpreter) (hrest : k.rest = t.bounds ++ after)
    (hend : EndsStatement after)
    (hvalues : t.reckon i.memory.view g = .ok (initial, terminal, step) g')
    (hroom : i.memory.stackLimit + Memory.loopFrameSize ≤ i.memory.stackTop) :
    ∃ s', loop s = .ok .proceed s' ∧ s'.interpreter = { i with
      memory := (i.memory.pushed
        (.loop t.counter terminal step i.currentLine (k.past t.bounds).pos)).stored
          t.counter initial
      textPos := (k.past t.bounds).pos
      generator := g' } := by
  obtain ⟨x, g₁, hinitial, hvalues⟩ := exists_of_bind_ok hvalues
  obtain ⟨y, g₂, hterminal, hvalues⟩ := exists_of_bind_ok hvalues
  obtain ⟨z, g₃, hstep, hvalues⟩ := exists_of_bind_ok hvalues
  cases hvalues
  have hletter : k.rest = t.counter.letter :: (t.after.val ++ (byte '=' :: (t.initial.source ++
      (ascii "TO" ++ (t.terminal.source ++ (LoopText.stepSource t.step ++ after)))))) := by
    rw [hrest, LoopText.bounds]
    simp only [List.cons_append, List.append_assoc]
  obtain ⟨s₁, hread₁, hs₁⟩ := readVariable_at hs hletter (Expr.begins_behind t.after (by decide))
    (Expr.skipBlanks_cons (by decide) _)
  have hequals : (k.past (t.counter.letter :: t.after.val)).rest = byte '=' ::
    (t.initial.before.val ++
      (t.initial.text ++ (t.initial.after.val ++
        (ascii "TO" ++ (t.terminal.source ++ (LoopText.stepSource t.step ++ after)))))) := by
    apply Cursor.rest_past
    rw [hletter, Operand.source]
    simp only [List.cons_append, List.append_assoc]
  obtain ⟨s₂, hread₂, hs₂⟩ := expect_at .expectedEquals hs₁ hequals (by decide)
    (t.initial.skipBlanks_text _)
  generalize hk₁ : (k.past (t.counter.letter :: t.after.val)).past
    (byte '=' :: t.initial.before.val) = k₁ at hs₂
  have hrest₁ : k₁.rest = t.initial.text ++ (t.initial.after.val ++ (ascii "TO" ++
      (t.terminal.source ++ (LoopText.stepSource t.step ++ after)))) := by
    rw [← hk₁]
    exact @Cursor.rest_past _ (byte '=' :: t.initial.before.val) _ hequals
  obtain ⟨s₃, hread₃, hs₃⟩ := expression_at hi.layout hs₂ hrest₁
    (t.initial_parted.readBefore (by decide)) hinitial
  have hupTo : (k₁.past t.initial.text).rest = t.initial.after.val ++ (ascii "TO" ++
      (t.terminal.before.val ++ (t.terminal.text ++ (t.terminal.after.val ++
        (LoopText.stepSource t.step ++ after))))) := by
    rw [Cursor.rest_past hrest₁, Operand.source]
    simp only [List.append_assoc]
  have hfind : LoopBound.vocabulary.find? (ascii "TO" ++
    (t.terminal.before.val ++ (t.terminal.text ++
      (t.terminal.after.val ++ (LoopText.stepSource t.step ++ after))))) = some (.upTo, 2) := rfl
  have hword := Cursor.token_of_rest hupTo rfl hfind (t.terminal.skipBlanks_text _)
  rw [← hs₃.token_eq] at hword
  generalize hk₂ : (k₁.past t.initial.text).past
    (t.initial.after.val ++ (ascii "TO" ++ t.terminal.before.val)) = k₂ at hword
  have hrest₂ : k₂.rest = t.terminal.text ++ (t.terminal.after.val ++
      (LoopText.stepSource t.step ++ after)) := by
    rw [← hk₂]
    apply Cursor.rest_past
    rw [hupTo]
    simp only [List.append_assoc]
  have hterminal_read : t.terminal.ReadBefore (LoopText.stepSource t.step ++ after) := by
    cases hgiven : t.step with
    | none => exact t.terminal.readBefore_of_ended hend.ended
    | some o => exact (t.terminal_parted (by rw [hgiven]; rfl)).readBefore (by decide)
  have hs₄ := hs₃.standsAt (c := k₂) (by rw [← hk₂]; rfl)
  obtain ⟨s₅, hread₅, hs₅⟩ := expression_at (s := s₃.movedTo k₂.pos) hi.layout hs₄ hrest₂
    hterminal_read hterminal
  obtain ⟨s₆, hread₆, hs₆⟩ := loopStep_at t.step hi.layout hs₅ (Cursor.rest_past hrest₂) hend hstep
  generalize hk₃ : (k₂.past t.terminal.text).past
    (t.terminal.after.val ++ LoopText.stepSource t.step) = k₃ at hs₆
  have hrest₃ : k₃.rest = after := by
    rw [← hk₃]
    apply Cursor.rest_past
    rw [Cursor.rest_past hrest₂, List.append_assoc]
  obtain ⟨s₇, hread₇, hs₇⟩ := expectEndOfStatement_at hs₆ (hrest₃.symm ▸ hend)
  -- The pieces that have been read are the whole text.
  have hpassed : k₃ = k.past t.bounds := by
    rw [← hk₃, ← hk₂, ← hk₁]
    simp only [← Cursor.past_append, LoopText.bounds, Operand.source, List.cons_append,
      List.append_assoc]
  rw [hpassed] at hs₇
  have hrunning : s₇.interpreter.Running l frames := by
    rw [hs₇.eq]
    exact (ReadOn.of_within hk g').running hi
  have hsavable : (Frame.loop t.counter terminal step s₇.interpreter.currentLine
      s₇.interpreter.textPos).Savable := hrunning.savable hrunning.inside
  have hfits : ¬ s₇.interpreter.memory.stackTop < s₇.interpreter.memory.stackLimit +
      Memory.loopFrameSize := by
    rw [hs₇.eq]
    exact Nat.not_lt.2 hroom
  obtain ⟨journal, hbegun⟩ := begin_of_room t.counter initial hrunning hsavable hfits
  refine ⟨_, Eq.trans ?_ hbegun, by rw [hs₇.eq]⟩
  unfold loop
  rw [bind_of_ok hread₁, bind_of_ok hread₂, bind_of_ok hread₃, bind_of_ok (cursor_eq s₃), hword]
  refine (bind_of_ok (goTo_eq k₂ s₃)).trans ((bind_of_ok hread₅).trans ?_)
  rw [bind_of_ok hread₆, bind_of_ok hread₇]
  rfl

theorem within_source {t : LoopText} {c : Cursor} (hrest : c.rest = t.source ++ after) :
    c.Within (c.past t.source) := by
  rw [← Cursor.moveTo_eq_past hrest]
  exact c.moveTo_within after

theorem statement_loop [Host σ] {l : Listing} {frames : List Frame} {t : LoopText}
    {initial terminal step : Int16}
    (hs : s.interpreter.Running l frames) (hrest : s.interpreter.cursor.rest = t.source ++ after)
    (hend : EndsStatement after)
    (hvalues : t.reckon s.interpreter.memory.view s.interpreter.generator =
      .ok (initial, terminal, step) g)
    (hroom : s.interpreter.memory.stackLimit + Memory.loopFrameSize ≤
      s.interpreter.memory.stackTop) :
    ∃ s', statement s = .ok .proceed s' ∧ s'.interpreter = { s.interpreter with
      memory := (s.interpreter.memory.pushed (t.frame s.interpreter terminal step)).stored
        t.counter initial
      textPos := s.interpreter.textPos + t.source.length
      generator := g } := by
  have hword : s.interpreter.cursor.rest = t.before.val ++
      (ascii "FOR" ++ (t.gap.val ++ (t.bounds ++ after))) := by
    rw [hrest, LoopText.source]
    simp only [List.append_assoc]
  have hfind : Keyword.vocabulary.find? (ascii "FOR" ++ (t.gap.val ++ (t.bounds ++ after))) =
      some (.loop, 3) := rfl
  have htoken := Cursor.token_of_rest hword rfl hfind
    (Lexeme.skipBlanks_of_isUpper (isUpper_letter t.counter) _)
  have hsource : s.interpreter.cursor.past t.source =
      (s.interpreter.cursor.past (t.before.val ++ (ascii "FOR" ++ t.gap.val))).past t.bounds := by
    rw [← Cursor.past_append, LoopText.source]
    simp only [List.append_assoc]
  generalize hk : s.interpreter.cursor.past (t.before.val ++ (ascii "FOR" ++ t.gap.val)) =
    k at htoken hsource
  have hbounds : k.rest = t.bounds ++ after := by
    rw [← hk]
    apply Cursor.rest_past
    rw [hword]
    simp only [List.append_assoc]
  have hmoved := s.interpreter.standsAt_self.readTo.standsAt (c := k) (by rw [← hk]; rfl)
  obtain ⟨s', hrun, hleft⟩ := loop_at (s := (s.movedTo k.pos).noted (.statement (some .loop) k.pos))
    hs (hsource ▸ within_source hrest) hmoved hbounds hend hvalues hroom
  rw [← hsource] at hleft
  refine ⟨s', ?_, hleft⟩
  unfold statement
  rw [bind_of_ok (cursor_eq s), htoken]
  exact (bind_of_ok (goTo_eq k s)).trans hrun

end Session

/-- A `FOR` that has room pushes the frame of the loop and stores the initial value, and nothing
else. The session goes on at the place that the frame has saved, at the end of the statement. -/
theorem Next.of_loop {σ : Type} [Host σ] {call : Call} {s : Session σ} {M' : Moment σ} {l : Listing}
    {frames : List Frame} {t : LoopText} {after : List UInt8} {initial terminal step : Int16}
      {g : Generator}
    (hn : Next (.busy call .execute s) M') (hs : s.interpreter.Running l frames)
    (hrest : s.interpreter.cursor.rest = t.source ++ after) (hend : EndsStatement after)
    (hvalues : t.reckon s.interpreter.memory.view s.interpreter.generator =
      .ok (initial, terminal, step) g)
    (hroom : s.interpreter.memory.stackLimit + Memory.loopFrameSize ≤
      s.interpreter.memory.stackTop) :
    M'.frames = t.frame s.interpreter terminal step :: (Moment.busy call .execute s).frames ∧
      M'.memory.value t.counter = initial ∧
      (∀ w, w ≠ t.counter → M'.memory.value w = s.interpreter.memory.value w) ∧
      M'.memory.lines = s.interpreter.memory.lines ∧
      M'.GoesOnAt s.interpreter.currentLine (s.interpreter.textPos + t.source.length) := by
  obtain ⟨s', hrun, hleft⟩ := Session.statement_loop hs hrest hend hvalues hroom
  obtain rfl := hn.eq_of_statement hrun
  have hrunning := (Interpreter.ReadOn.of_within (Session.within_source hrest) g).running hs
  generalize hframe : t.frame s.interpreter terminal step = frame at hleft
  have hsavable : frame.Savable := hframe ▸ hrunning.savable hrunning.inside
  have hfits : ¬ s.interpreter.memory.stackTop < s.interpreter.memory.stackLimit + frame.size :=
    hframe ▸ Nat.not_lt.2 hroom
  have hpushed := hs.toSound.pushed hsavable hfits
  have hstored := hpushed.stored t.counter initial
  have hmemory : s'.interpreter.memory = (s.interpreter.memory.pushed frame).stored t.counter
      initial := by
    rw [hleft]
  refine ⟨?_, ?_, fun w hw => ?_, ?_, by rw [hleft], by rw [hleft]⟩
  · show s'.interpreter.memory.frames.map Prod.snd = _ :: s.interpreter.memory.frames.map Prod.snd
    rw [hmemory, hstored.decodes.frames_eq, hs.decodes.frames_eq]
  · show s'.interpreter.memory.value t.counter = initial
    rw [hmemory, Memory.value_stored hpushed.layout]
  · show s'.interpreter.memory.value w = _
    rw [hmemory, Memory.value_stored_of_ne hpushed.layout hw, Memory.value_pushed hs.layout hfits]
  · show s'.interpreter.memory.lines = _
    rw [hmemory, Memory.lines_eq hstored.layout hstored.holds, Memory.lines_eq hs.layout hs.holds]

end LineBasic
