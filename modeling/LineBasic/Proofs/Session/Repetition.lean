import LineBasic.Proofs.LineNumber
import LineBasic.Proofs.Memory.Variables
import LineBasic.Proofs.Session.Stack

namespace LineBasic

namespace Cursor

/-- The variable that a `NEXT` names at the cursor, if it names one, and where the statement ends.
-/
def named? (c : Cursor) : Option (Option Variable × Cursor) :=
  if c.skipBlanks.atEndOfStatement then some (none, c.skipBlanks)
  else
    match c.skipBlanks.letter? with
    | none => none
    | some v =>
      if c.skipBlanks.advance.skipBlanks.atEndOfStatement then some
        (some v, c.skipBlanks.advance.skipBlanks)
      else none

end Cursor

namespace Session
variable {σ α : Type} {s : Session σ}

theorem expectEndOfStatement_eq (h : s.interpreter.cursor.skipBlanks.atEndOfStatement = true) :
    expectEndOfStatement s = .ok () (s.movedTo s.interpreter.cursor.skipBlanks.pos) := by
  have hend : endOfStatement s = .ok (.ok ()) (s.movedTo s.interpreter.cursor.skipBlanks.pos) := by
    unfold endOfStatement
    rw [bind_of_ok (cursor_eq s), bind_of_ok (goTo_eq _ s), h]
    rfl
  unfold expectEndOfStatement
  rw [bind_of_ok hend]
  rfl

theorem readVariable_eq {v : Variable} (h : s.interpreter.cursor.skipBlanks.letter? = some v) :
    readVariable s = .ok v (s.movedTo s.interpreter.cursor.skipBlanks.advance.skipBlanks.pos) := by
  unfold readVariable
  rw [bind_of_ok (cursor_eq s), h]
  exact bind_of_ok (goTo_eq _ s)

theorem bind_variable {v : Variable} {f : Variable → Act σ α}
    (hletter : s.interpreter.cursor.skipBlanks.letter? = some v)
    (hend : s.interpreter.cursor.skipBlanks.advance.skipBlanks.atEndOfStatement = true) :
    (readVariable >>= fun v => expectEndOfStatement >>= fun _ => f v) s =
      f v (s.movedTo s.interpreter.cursor.skipBlanks.advance.skipBlanks.pos) := by
  have hwithin : s.interpreter.cursor.Within
      s.interpreter.cursor.skipBlanks.advance.skipBlanks := by
    have hmarker := Cursor.peek_ne_marker_of_letter? hletter
    exact (Cursor.skipBlanks_within _).trans ((Cursor.advance_within hmarker).trans
      (Cursor.skipBlanks_within _))
  have hcursor := cursor_movedTo hwithin
  have hstatement := expectEndOfStatement_eq
    (s := s.movedTo s.interpreter.cursor.skipBlanks.advance.skipBlanks.pos)
    (by rw [hcursor, Cursor.skipBlanks_skipBlanks, hend])
  rw [hcursor, Cursor.skipBlanks_skipBlanks] at hstatement
  rw [bind_of_ok (readVariable_eq hletter), bind_of_ok hstatement]
  rfl

theorem bind_named {named : Option Variable} {c : Cursor} {f : Option Variable → Act σ α}
    (h : s.interpreter.cursor.named? = some (named, c)) :
    (loopVariable >>= fun v => expectEndOfStatement >>= fun _ => f v) s = f named
    (s.movedTo c.pos) := by
  unfold Cursor.named? at h
  split at h
  case isTrue hend =>
    cases h
    have hnone : loopVariable s = .ok none s := by
      unfold loopVariable
      rw [bind_of_ok (cursor_eq s), if_pos hend]
      rfl
    rw [bind_of_ok hnone, bind_of_ok (expectEndOfStatement_eq hend)]
  case isFalse hend =>
    split at h
    case h_1 => cases h
    case h_2 v hletter =>
      split at h
      case isFalse => cases h
      case isTrue hafter =>
        cases h
        have hvariable : loopVariable s = (readVariable >>= fun v => pure (some v)) s := by
          unfold loopVariable
          rw [bind_of_ok (cursor_eq s), if_neg hend]
        refine (bind_of_eq hvariable).trans ?_
        rw [bind_assoc]
        exact bind_variable (f := fun v => f (some v)) hletter hafter

theorem variable_of_named {c d : Cursor} {v : Variable} (h : c.named? = some (some v, d)) :
    c.skipBlanks.letter? = some v ∧ c.skipBlanks.advance.skipBlanks.atEndOfStatement = true ∧
      d = c.skipBlanks.advance.skipBlanks := by
  unfold Cursor.named? at h
  split at h
  case isTrue => cases h
  case isFalse =>
    split at h
    case h_1 => cases h
    case h_2 w hletter =>
      split at h
      case isFalse => cases h
      case isTrue hafter =>
        cases h
        exact ⟨hletter, hafter, rfl⟩

section
variable {l : Listing} {above below : List Frame} {v : Variable} {terminal step : Int16}
  {line : Option Nat} {pos : Nat}
  {named : Option Variable} {c : Cursor}
  (hs : s.interpreter.memory.Sound l (above ++ .loop v terminal step line pos :: below))
  (hnamed : s.interpreter.cursor.named? = some (named, c)) (hover : named.all (· = v) = true)
  (habove : ∀ frame ∈ above, frame.isLoopOver named = false)
include hs hnamed hover habove

/-- `NEXT` steps the variable of the loop that it finds, and then repeats the loop or leaves it. -/
theorem next_found : next s = (do
      if repeats step (s.interpreter.memory.value v + step) terminal then
        onMemory (Memory.unwindTo (s.interpreter.memory.stackTop + depth above))
        resume line pos
      else
        notePopped (← onMemory (Memory.unwindPast (s.interpreter.memory.stackTop + depth above)))
      return .proceed : Act σ Phase)
    ((s.movedTo c.pos).withMemory (s.interpreter.memory.stored v
      (s.interpreter.memory.value v + step))) := by
  have hfound : s.interpreter.memory.findLoop named =
      some (s.interpreter.memory.stackTop + depth above, .loop v terminal step line pos) :=
    hs.stack.findLoop_eq habove hover
  have hlook : look (·.memory.findLoop named) (s.movedTo c.pos) =
      .ok (some (s.interpreter.memory.stackTop + depth above, .loop v terminal step line pos))
        (s.movedTo c.pos) :=
    congrArg (EStateM.Result.ok · (s.movedTo c.pos)) hfound
  have hfetch : lookIn (·.fetch v) (s.movedTo c.pos) = .ok (s.interpreter.memory.value v)
      (s.movedTo c.pos) :=
    lookIn_of_ok (f := (·.fetch v)) (Memory.fetch_eq hs.layout v)
  have hstore := onMemory_of_ok (s := s.movedTo c.pos)
    (Memory.store_eq v (s.interpreter.memory.value v + step) hs.layout)
  unfold next
  refine (bind_named hnamed).trans ((bind_of_ok hlook).trans ?_)
  exact (bind_of_ok hfetch).trans (bind_of_ok hstore)

theorem next_again (hr : repeats step (s.interpreter.memory.value v + step) terminal = true) :
    next s = .ok .proceed { s with interpreter := { s.interpreter with
      memory := { s.interpreter.memory.stored v (s.interpreter.memory.value v + step) with
        stackTop := s.interpreter.memory.stackTop + depth above }
      currentLine := line
      textPos := pos } } := by
  rw [next_found hs hnamed hover habove, hr]
  rfl

theorem next_leave (hr : repeats step (s.interpreter.memory.value v + step) terminal = false) :
    ∃ journal, next s = .ok .proceed { s with
      journal
      interpreter := { s.interpreter with
        memory := { s.interpreter.memory.stored v (s.interpreter.memory.value v + step) with
          stackTop := s.interpreter.memory.stackTop + depth above + Memory.loopFrameSize }
        textPos := c.pos } } := by
  have hstored := hs.stored v (s.interpreter.memory.value v + step)
  have hpast := onMemory_of_ok (s := (s.movedTo c.pos).withMemory (s.interpreter.memory.stored v
    (s.interpreter.memory.value v + step))) (Memory.unwindPast_eq hstored.stack)
  rw [next_found hs hnamed hover habove, hr, if_neg Bool.false_ne_true]
  exact ⟨_, (bind_of_ok hpast).trans rfl⟩

end

theorem statement_next [Host σ] {c : Cursor}
    (h : s.interpreter.cursor.token Keyword.vocabulary = (some .next, c)) :
    statement s = next ((s.movedTo c.pos).noted (.statement (some .next) c.pos)) := by
  unfold statement
  rw [bind_of_ok (cursor_eq s), h]
  exact (bind_of_ok (goTo_eq c s)).trans rfl

end Session

/-- What a `NEXT` selects: a frame, with those below it on the stack, and where the statement ends.
-/
structure Selection where
  frame : Frame
  below : List Frame
  after : Nat
  deriving DecidableEq

namespace Moment
variable {σ : Type} {l : Listing} {frames below : List Frame} {M M' : Moment σ}

/-- What the `NEXT` that is about to be executed selects, if there is one and it finds a frame. -/
def selection : Moment σ → Option Selection
  | busy _ .execute s =>
    match s.interpreter.cursor.token Keyword.vocabulary with
    | (some .next, c) =>
      match c.named? with
      | none => none
      | some (named, after) =>
        match (s.interpreter.memory.frames.map Prod.snd).dropWhile
          (fun frame => !frame.isLoopOver named) with
        | [] => none
        | frame :: below => some ⟨frame, below, after.pos⟩
    | _ => none
  | _ => none

/-- A statement has been executed, and the session goes on at this place. -/
def GoesOnAt (line : Option Nat) (pos : Nat) : Moment σ → Prop
  | busy _ .proceed s => s.interpreter.currentLine = line ∧ s.interpreter.textPos = pos
  | _ => False

theorem selection_eq_some {frame : Frame} {after : Nat}
    (h : M.selection = some ⟨frame, below, after⟩) :
    ∃ call s c named d above, M = busy call .execute s ∧
      s.interpreter.cursor.token Keyword.vocabulary = (some .next, c) ∧ c.named? = some (named, d) ∧
      d.pos = after ∧
      M.frames = above ++ frame :: below ∧ frame.isLoopOver named = true ∧
      ∀ f ∈ above, f.isLoopOver named = false := by
  unfold selection at h
  split at h
  case h_2 => cases h
  case h_1 call s =>
    split at h
    case h_2 => cases h
    case h_1 c htoken =>
      split at h
      case h_1 => cases h
      case h_2 named d hnamed =>
        split at h
        case h_1 => cases h
        case h_2 first rest hdrop =>
          cases h
          have hsplit := List.takeWhile_append_dropWhile
            (p := fun frame : Frame => !frame.isLoopOver named)
            (l := (s.interpreter.memory.frames.map Prod.snd))
          have hfirst := List.head?_dropWhile_not (fun frame : Frame => !frame.isLoopOver named)
            (s.interpreter.memory.frames.map Prod.snd)
          rw [hdrop] at hsplit hfirst
          refine ⟨call, s, c, named, d, _, rfl, htoken, hnamed, rfl,
            hsplit.symm, by simpa using hfirst, fun f hf => ?_⟩
          have hnot := List.all_eq_true.1 List.all_takeWhile f hf
          simpa using hnot

end Moment

section
variable {σ : Type} [Host σ] {l : Listing} {frames below : List Frame} {M M' : Moment σ}
  {v : Variable}
  {terminal step : Int16} {line : Option Nat} {pos after : Nat}

theorem Next.eq_of_statement {call : Call} {phase : Phase} {s s' : Session σ}
    (hn : Next (.busy call .execute s) M') (h : Session.statement s = .ok phase s') :
    M' = .busy call phase s' := by
  have hexecute : Session.step .execute s = .ok phase s' := bind_of_ok (Session.attempt_of_ok h)
  cases hn with
  | rest hrest => cases call <;> cases hrest
  | stop _ hstop => cases hexecute.symm.trans hstop
  | step _ hok =>
    cases hexecute.symm.trans hok
    rfl

/-- A `NEXT` that selects a loop steps its variable and nothing else. If the loop is to be repeated,
the session goes on at the place that was saved, with the frame of the loop on top; otherwise it
goes on after the `NEXT`, and the frame has gone with all that were above it. -/
theorem Next.of_selection (hM : M.Ready l frames) (hn : Next M M')
    (hselection : M.selection = some ⟨.loop v terminal step line pos, below, after⟩) :
    M'.memory.value v = M.memory.value v + step ∧
    (∀ w, w ≠ v → M'.memory.value w = M.memory.value w) ∧
      M'.memory.lines = M.memory.lines ∧
      if Session.repeats step (M.memory.value v + step) terminal then
        M'.frames = .loop v terminal step line pos :: below ∧ M'.GoesOnAt line pos
      else M'.frames = below ∧ M'.GoesOnAt M.session.interpreter.currentLine after := by
  obtain ⟨call, s, c, named, d, above, rfl, htoken, hnamed, rfl, hframes, hover, habove⟩ :=
    Moment.selection_eq_some hselection
  rw [hM.frames_eq] at hframes
  subst hframes
  have hs : s.interpreter.memory.Sound l (above ++ .loop v terminal step line pos :: below) :=
    hM.sane.toSound
  have hcursor : (s.movedTo c.pos).interpreter.cursor = c :=
    Session.cursor_movedTo (Session.token_within_of_eq htoken)
  have hread : ((s.movedTo c.pos).noted (.statement (some .next) c.pos)).interpreter.cursor.named? =
      some (named, d) := by
    show (s.movedTo c.pos).interpreter.cursor.named? = _
    rw [hcursor, hnamed]
  have hstored := hs.stored v (s.interpreter.memory.value v + step)
  have hlines {m : Memory} {frames' : List Frame} (h : m.Sound l frames') : m.lines =
      s.interpreter.memory.lines := by
    rw [Memory.lines_eq h.layout h.holds, Memory.lines_eq hs.layout hs.holds]
  have hstatement := Session.statement_next htoken
  cases hr : Session.repeats step (s.interpreter.memory.value v + step) terminal with
  | true =>
    obtain rfl :=
      hn.eq_of_statement (hstatement.trans (Session.next_again hs hread hover habove hr))
    have hframes := hstored.unwound.decodes.frames_eq
    refine ⟨Memory.value_stored hs.layout v _, fun w hw => Memory.value_stored_of_ne hs.layout hw,
      hlines hstored.unwound, ?_⟩
    rw [show Session.repeats step ((Moment.busy call .execute s).memory.value v + step) terminal =
      true from hr]
    exact ⟨hframes, rfl, rfl⟩
  | false =>
    obtain ⟨journal, hleave⟩ := Session.next_leave
      (s := (s.movedTo c.pos).noted (.statement (some .next) c.pos))
      hs hread hover habove hr
    obtain rfl := hn.eq_of_statement (hstatement.trans hleave)
    have hframes := hstored.dropped.decodes.frames_eq
    refine ⟨Memory.value_stored hs.layout v _, fun w hw => Memory.value_stored_of_ne hs.layout hw,
      hlines hstored.dropped, ?_⟩
    rw [show Session.repeats step ((Moment.busy call .execute s).memory.value v + step) terminal =
      false from hr]
    exact ⟨hframes, rfl, rfl⟩

end
end LineBasic
