import Mathlib.Data.List.Forall2
import LineBasic.Proofs.Session.Printing
import LineBasic.Proofs.Session.Provenance
import LineBasic.Proofs.Session.TypedLine

namespace LineBasic
variable {σ τ : Type}

namespace Listing
variable {l : Listing}

def Unopened (l : Listing) : Option Nat → Nat → Prop
  | none, _ => True
  | some address, pos => ∃ line front back, l.StartsAt line address ∧ line.text = front ++ back ∧
      pos = Memory.textStart address + front.length ∧ Case.openAfter none front = none

theorem StartsAt.unopened {line : Line} {address : Nat} (h : l.StartsAt line address) :
    l.Unopened (some address) (Memory.textStart address) :=
  ⟨line, [], line.text, h, rfl, rfl, rfl⟩

end Listing

/-- What is left of the line from a position in its text. -/
theorem Memory.LineAt.rest_eq {m : Memory} {l : Listing} {line : Line} {address : Nat}
    (h : m.LineAt l line address) {front back : List UInt8} (ht : line.text = front ++ back) :
    Cursor.rest ⟨m.ram, Memory.textStart address + front.length⟩ = back := by
  have hnone := h.storable.marker_notMem
  have hs := h.stands
  rw [Line.record, List.append_assoc, stands_append, length_wordBytes, List.cons_append,
    stands_cons, ht,
    List.append_assoc, stands_append] at hs
  rw [ht] at hnone
  exact Cursor.rest_of_stands hs.2.2.2 fun hm => hnone (List.mem_append_right _ hm)

namespace Interpreter
variable {l : Listing} {frames frames' : List Frame} {i j : Interpreter} {phase : Phase}
  {c : Cursor}

def Unopened (i : Interpreter) (l : Listing) : Phase → Prop
  | .direct | .poll | .execute | .proceed => l.Unopened i.currentLine i.textPos
  | .ask (.reply _ resume) | .edit (.reply _ resume) _ => l.Unopened i.currentLine resume
  | _ => True

/-- A line that has been opened at a position where no string is open. -/
theorem exists_of_unopened (hs : i.memory.Sound l frames) {address : Nat}
    (hc : i.currentLine = some address) (h : l.Unopened i.currentLine i.textPos) :
    ∃ line front back, l.StartsAt line address ∧ line.text = front ++ back ∧
      i.textPos = Memory.textStart address + front.length ∧ Case.openAfter none front = none ∧
      i.cursor.rest = back := by
  rw [hc] at h
  obtain ⟨line, front, back, hstarts, htext, hpos, hopen⟩ := h
  have hat : Memory.LineAt i.memory l line address := ⟨hstarts, hs.holds, hs.layout⟩
  refine ⟨line, front, back, hstarts, htext, hpos, hopen, ?_⟩
  rw [cursor, hpos]
  exact hat.rest_eq htext

theorem unopened_of_passed (hs : i.memory.Sound l frames) (h : l.Unopened i.currentLine i.textPos)
    {text : List UInt8} (hp : i.cursor.Passed text c) (ht : Case.openAfter none text = none) :
    l.Unopened i.currentLine c.pos := by
  cases hc : i.currentLine with
  | none => exact trivial
  | some address =>
    obtain ⟨line, front, back, hstarts, htext, hpos, hopen, hrest⟩ := exists_of_unopened hs hc h
    refine ⟨line, front ++ text, c.rest, hstarts, ?_, ?_, ?_⟩
    · rw [htext, ← hrest, hp.rest_eq, List.append_assoc]
    · rw [hp.pos_eq, List.length_append, ← Nat.add_assoc, ← hpos]
      rfl
    · rw [Case.openAfter_append, hopen, ht]

theorem GoesOn.unopened (h : j.GoesOn frames c phase)
    (hf : ∀ frame ∈ frames, l.Unopened frame.line frame.pos) (hc : l.Unopened i.currentLine c.pos)
    (hj : j.currentLine = i.currentLine) : l.Unopened j.currentLine j.textPos := by
  obtain hpos | ⟨-, frame, hm, hline, hpos⟩ := h
  · rw [hj, hpos]
    exact hc
  · rw [hline, hpos]
    exact hf frame hm

/-- No string is open where a statement has been read to, and execution goes on there or where a
frame continues, unless the line has ended with it. -/
def LeavesUnopened (i : Interpreter) (l : Listing) (frames : List Frame) (phase : Phase)
    (j : Interpreter) : Prop :=
  ∃ c : Cursor, l.Unopened i.currentLine c.pos ∧
    (phase ∈ [.prompt, .restart, .nextLine] ∨ j.GoesOn frames c phase)

end Interpreter

/-- A statement leaves no string open: where the frames continue that it leaves, and where execution
goes on. -/
theorem Effect.unopened {l : Listing} {frames frames' : List Frame} {i j : Interpreter}
    {phase : Phase} (he : Effect l frames i phase frames' j)
    (hf : ∀ frame ∈ frames, l.Unopened frame.line frame.pos)
    (h : i.LeavesUnopened l frames phase j) :
    (∀ frame ∈ frames', l.Unopened frame.line frame.pos) ∧ j.Unopened l phase := by
  obtain ⟨c, hc, hg⟩ := h
  -- By the statement: frames come from the stack as it was, but for the one pushed, which continues
  -- where the statement ended.
  cases he with
  | @pass _ k hr hp =>
    refine ⟨hf, ?_⟩
    simp only [List.mem_cons, List.not_mem_nil, or_false] at hp
    rcases hp with rfl | rfl | rfl | rfl
    · exact (hg.resolve_left (by decide)).unopened hf hc hr.currentLine_eq
    all_goals exact trivial
  | @ask k v hr he =>
    have hgoes := hg.resolve_left (by simp)
    exact ⟨hf, hgoes.unopened hf hc hr.currentLine_eq⟩
  | @store k v x hr he =>
    have hgoes := hg.resolve_left (by decide)
    exact ⟨hf, hgoes.unopened hf hc hr.currentLine_eq⟩
  | run => exact ⟨fun _ hm => absurd hm List.not_mem_nil, trivial⟩
  | finish | jump => exact ⟨hf, trivial⟩
  | @call k number hr he hroom =>
    refine ⟨fun frame hm => ?_, trivial⟩
    rcases List.mem_cons.1 hm with rfl | hm
    · obtain hpos | ⟨hproceed, -⟩ := hg.resolve_left (by decide)
      · show l.Unopened k.currentLine k.textPos
        rw [hr.currentLine_eq, show k.textPos = c.pos from hpos]
        exact hc
      · cases hproceed
    · exact hf frame hm
  | @goBack k before after line pos hr hsplit hb =>
    subst hsplit
    refine ⟨fun frame hm => hf frame ?_, hf (.gosub line pos)
      (List.mem_append_right _ List.mem_cons_self)⟩
    exact (List.mem_append.1 hm).elim (List.mem_append_left _) fun hm =>
      List.mem_append_right _ (List.mem_cons_of_mem _ hm)
  | @loop k v initial terminal step hr he hroom =>
    have hplace : l.Unopened k.currentLine k.textPos :=
      (hg.resolve_left (by decide)).unopened hf hc hr.currentLine_eq
    refine ⟨fun frame hm => ?_, hplace⟩
    rcases List.mem_cons.1 hm with rfl | hm
    · exact hplace
    · exact hf frame hm
  | @again k before after v terminal step line pos named hr hsplit =>
    subst hsplit
    refine ⟨fun frame hm => hf frame (List.mem_append_right _ hm), ?_⟩
    exact hf (.loop v terminal step line pos) (List.mem_append_right _ List.mem_cons_self)
  | @leave k before after v terminal step line pos named hr hsplit =>
    have hgoes := hg.resolve_left (by decide)
    refine ⟨fun frame hm => hf frame ?_, hgoes.unopened hf hc hr.currentLine_eq⟩
    rw [hsplit]
    exact List.mem_append_right _ (List.mem_cons_of_mem _ hm)

namespace Session
variable {l : Listing} {frames : List Frame} {s : Session σ}

theorem line_unopened (hs : s.interpreter.Ready l frames .line) :
    Ends (line s) (fun phase t => t.interpreter.Unopened l phase) fun _ _ => True := by
  refine Ends.after_ok (show look (·.currentLine) s = .ok s.interpreter.currentLine s from rfl) ?_
  cases hc : s.interpreter.currentLine with
  | none => exact Ends.of_ok rfl trivial
  | some address =>
    refine Ends.after_ok (show look (·.memory.programEnd) s = .ok s.interpreter.memory.programEnd s
      from rfl) ?_
    by_cases hlt : address < s.interpreter.memory.programEnd
    · rw [if_pos hlt]
      obtain ⟨line, hstarts⟩ | hend := hs.2 address hc
      · refine Ends.of_ok rfl ?_
        show l.Unopened s.interpreter.currentLine (Memory.textStart address)
        rw [hc]
        exact hstarts.unopened
      · have hextent := hs.1.holds.programEnd_eq
        omega
    · rw [if_neg hlt]
      exact Ends.of_ok rfl trivial

theorem proceed_unopened (hs : s.interpreter.memory.Sound l frames)
    (h : s.interpreter.Unopened l .proceed) :
    Ends (proceed s) (fun phase t => t.interpreter.Unopened l phase) fun _ _ => True := by
  have hcolons : s.interpreter.cursor.Skips
      (s.interpreter.cursor.moveTo (s.interpreter.cursor.rest.dropWhile (· = byte ':'))) :=
    .moveTo (.dropWhile (fun b hb => by rw [of_decide_eq_true hb]; decide) _)
  obtain ⟨text, htext, hpassed⟩ := hcolons.trans (.skipBlanks _)
  have hopen := Interpreter.unopened_of_passed hs h hpassed (Case.openAfter_of_unquoted htext)
  refine Ends.of_ok rfl ?_
  split
  · exact trivial
  · exact hopen

theorem Replied.unopened {v : Variable} {resume : Nat} {typed : List UInt8} {i j : Interpreter}
    {phase : Phase} (h : Replied v resume typed i phase j) (hi : l.Unopened i.currentLine resume) :
    j.Unopened l phase := by
  cases h with
  | stored x generator => exact hi
  | rejected generator pos => exact hi

/-- A command that has been taken is executed in no stored line. -/
theorem unopened_of_entered {i : Interpreter} {phase : Phase}
    (hp : phase ∈ [.direct, .prompt, .restart]) (hd : phase = .direct → i.currentLine = none)
    (l : Listing) : i.Unopened l phase := by
  simp only [List.mem_cons, List.not_mem_nil, or_false] at hp
  rcases hp with rfl | rfl | rfl
  · show l.Unopened i.currentLine i.textPos
    rw [hd rfl]
    exact trivial
  · exact trivial
  · exact trivial

section
variable [Host σ]

/-- No string is open where execution goes on after a statement. -/
theorem statement_goesOn (hs : s.interpreter.Running l frames)
    (h : l.Unopened s.interpreter.currentLine s.interpreter.textPos) :
    Ends (statement s) (fun phase t => s.interpreter.LeavesUnopened l frames phase t.interpreter)
      fun _ _ => True := by
  by_cases hk : s.interpreter.keyword = some .remarkSign
  · obtain ⟨t, hrun, -⟩ := statement_remarkSign hk
    exact Ends.of_ok hrun ⟨s.interpreter.cursor, h, Or.inl (by decide)⟩
  · refine (leads_statement hk s hs rfl).mono (fun phase t hd => ?_) fun _ _ _ => trivial
    obtain ⟨j, ⟨-, pieces, -, hpassed, -⟩, hdoes⟩ := hd
    exact ⟨j.cursor, Interpreter.unopened_of_passed hs.toSound h hpassed
      (Piece.openAfter_sources pieces), Or.inr hdoes.goesOn⟩

theorem execute_goesOn (hs : s.interpreter.Running l frames)
    (h : l.Unopened s.interpreter.currentLine s.interpreter.textPos) :
    Ends (execute s) (fun phase t => s.interpreter.LeavesUnopened l frames phase t.interpreter)
      fun _ _ => True := by
  refine (execute_ends hs (statement_goesOn hs h)).mono (fun phase t he => ?_) fun _ _ _ => trivial
  obtain he | ⟨hp, -⟩ := he
  · exact he
  · refine ⟨s.interpreter.cursor, h, Or.inl ?_⟩
    simp only [List.mem_cons, List.not_mem_nil, or_false] at hp ⊢
    exact hp.imp_right Or.inl

theorem execute_unopened (hs : s.interpreter.Running l frames)
    (hf : ∀ frame ∈ frames, l.Unopened frame.line frame.pos)
    (h : l.Unopened s.interpreter.currentLine s.interpreter.textPos) :
    Ends (execute s)
      (fun phase t => ∃ l' frames', t.interpreter.Ready l' frames' phase ∧
        (∀ frame ∈ frames', l'.Unopened frame.line frame.pos) ∧ t.interpreter.Unopened l' phase)
      fun _ t => ∃ frames', t.interpreter.memory.Sane l frames' ∧
        ∀ frame ∈ frames', l.Unopened frame.line frame.pos := by
  refine ((execute_executed hs).and (execute_goesOn hs h)).mono (fun phase t hr => ?_) fun _ t hr =>
    ?_
  case refine_2 =>
    obtain ⟨⟨-, frames', hsane, hsub⟩, -⟩ := hr
    exact ⟨frames', hsane, fun frame hm => hf frame (hsub.subset hm)⟩
  obtain ⟨hexecuted, hgoes⟩ := hr
  cases hexecuted with
  | @done frames' he => exact ⟨l, frames', (hs.effect he).1, he.unopened hf hgoes⟩
  | emptied hc =>
    refine ⟨.empty, [], hs.cleared hc, fun _ hm => absurd hm List.not_mem_nil, ?_⟩
    rw [hc.phase_eq]
    exact trivial
  | reported hp ho =>
    obtain ⟨frames', hready, hsub⟩ := ho
    refine ⟨l, frames', hready, fun frame hm => hf frame (hsub.subset hm), ?_⟩
    simp only [List.mem_cons, List.not_mem_nil, or_false] at hp
    rcases hp with rfl | rfl
    · exact trivial
    · exact trivial

theorem poll_unopened (hs : s.interpreter.memory.Layout) (h : s.interpreter.Unopened l .poll) :
    Ends (poll s) (fun phase t => t.interpreter.Unopened l phase) fun _ _ => True := by
  refine Ends.bind ((talks_interrupted s hs).mono (fun _ _ h => h) fun _ _ _ => trivial)
    fun stop t hi => ?_
  cases stop with
  | true =>
    refine Ends.bind ((talks_printLine _ t (hi ▸ hs)).mono (fun _ _ h => h) fun _ _ _ => trivial)
      fun _ _ _ => ?_
    exact Ends.of_ok rfl trivial
  | false =>
    refine Ends.of_ok rfl ?_
    rw [hi]
    exact h

theorem ask_unopened (purpose : Purpose) (hs : s.interpreter.memory.Layout)
    (h : s.interpreter.Unopened l (.ask purpose)) :
    Ends (ask purpose s) (fun phase t => t.interpreter.Unopened l phase) fun _ _ => True := by
  refine Ends.bind ((talks_writeByte _ s hs).mono (fun _ _ h => h) fun _ _ _ => trivial)
    fun _ t hi => ?_
  refine Ends.of_ok rfl ?_
  rw [hi]
  cases purpose with
  | command => exact trivial
  | reply v resume => exact h

theorem command_unopened {pos : Nat} (hs : s.interpreter.memory.Sane l frames)
    (hp : s.interpreter.memory.Typing pos) :
    Ends (typeByte .command pos s) (fun phase t => ∀ l', t.interpreter.Unopened l' phase) fun _ _ =>
      True := by
  refine (typeByte_enters hs hp).mono (fun phase t h => ?_) fun _ _ _ => trivial
  obtain ⟨⟨pos', rfl⟩, -⟩ | ⟨hphase, hdirect, -⟩ := h
  · exact fun _ => trivial
  · exact unopened_of_entered hphase hdirect

/-- While a reply is typed, and when it has been taken, execution is to go on where the statement
ended. -/
theorem reply_unopened {v : Variable} {resume pos : Nat}
    (hs : s.interpreter.Asking l frames (.reply v resume)) (hp : s.interpreter.memory.Typing pos)
    (h : l.Unopened s.interpreter.currentLine resume) :
    Ends (typeByte (.reply v resume) pos s) (fun phase t => t.interpreter.Unopened l phase)
      fun _ _ => True := by
  have hm := hs.sane.layout
  have htakes : Takes (· = s.interpreter) (fun phase j => j.Unopened l phase) (fun _ => True)
      (typeByte (.reply v resume) pos : Act σ Phase) := by
    refine takes_typeByte_of hm hp (fun j pos' hj _ _ => ?_) (fun _ _ => trivial) fun t ht => ?_
    · obtain rfl | ⟨b, rfl⟩ := hj
      · exact h
      · exact h
    · have hmarked : t.interpreter.Asking l frames (.reply v resume) := ht ▸ hs.typed hp Byte.marker
      have hreply : t.interpreter.memory.Typed (s.interpreter.memory.typedLine pos) :=
        ht ▸ hp.typed_marker hm
      have hresume : l.Unopened t.interpreter.currentLine resume := ht ▸ h
      exact (takeReply_replied hmarked.sane.layout hreply).mono (fun _ _ hr => hr.unopened hresume)
        fun _ _ hh => absurd hh id
  exact (htakes s rfl).mono (fun _ _ h => h) fun _ _ _ => trivial

theorem step_unopened {phase : Phase} (hp : phase ≠ .execute)
    (hs : s.interpreter.Ready l frames phase) (h : s.interpreter.Unopened l phase) :
    Ends (step phase s)
      (fun phase' t => ∀ l', (phase.Keeps s.interpreter → l' = l) →
        t.interpreter.Unopened l' phase') fun _ _ => True := by
  -- A phase that keeps the program is asked about that one program.
  have hkept {act : Act σ Phase} (hk : phase.Keeps s.interpreter)
      (hends : Ends (act s) (fun phase' t => t.interpreter.Unopened l phase') fun _ _ => True) :
      Ends (act s) (fun phase' t => ∀ l', (phase.Keeps s.interpreter → l' = l) →
        t.interpreter.Unopened l' phase')
        fun _ _ => True :=
    hends.mono (fun _ _ hu _ hl => hl hk ▸ hu) fun _ _ h => h
  cases phase with
  | execute => exact absurd rfl hp
  | cold =>
    have hgreet : LeadsInto (· = .restart) (greet : Act σ Phase) := .bind fun _ => .bind fun _ =>
      .bind fun _ => leadsInto_pure rfl
    exact (hgreet s).mono (fun _ _ hr _ _ => hr ▸ trivial) fun _ _ h => h
  | restart =>
    have hrestart : LeadsInto (· = .prompt) (restart : Act σ Phase) := .bind fun _ => .bind fun _ =>
      leadsInto_pure rfl
    exact (hrestart s).mono (fun _ _ hr _ _ => hr ▸ trivial) fun _ _ h => h
  | prompt => exact Ends.of_ok rfl fun _ _ => trivial
  | bye => exact Ends.of_ok rfl fun _ _ => trivial
  | direct =>
    refine Ends.of_ok (a := if s.interpreter.cursor.atEndOfLine = true then .prompt else .poll) rfl
      fun l' hl => ?_
    obtain rfl := hl trivial
    split
    · exact trivial
    · exact h
  | line => exact hkept trivial (line_unopened hs)
  | poll => exact hkept trivial (poll_unopened (Interpreter.Ready.sane hs).layout h)
  | proceed => exact hkept trivial (proceed_unopened (Interpreter.Ready.sane hs).toSound h)
  | nextLine =>
    have hnext : LeadsInto (· ∈ [.prompt, .line]) (nextLine : Act σ Phase) := by
      refine .bind fun current => ?_
      cases current with
      | none => exact leadsInto_pure (by decide)
      | some address => exact .bind fun _ => .bind fun _ => leadsInto_pure (by decide)
    refine (hnext s).mono (fun _ _ hr _ _ => ?_) fun _ _ h => h
    simp only [List.mem_cons, List.not_mem_nil, or_false] at hr
    rcases hr with rfl | rfl
    · exact trivial
    · exact trivial
  | ask purpose => exact hkept trivial (ask_unopened purpose (Interpreter.Ready.sane hs).layout h)
  | edit purpose pos =>
    cases purpose with
    | command => exact (command_unopened hs.1 hs.2).mono (fun _ _ hu l' _ => hu l') fun _ _ h => h
    | reply v resume => exact hkept trivial (reply_unopened hs.1 hs.2 h)

end
end Session

def Moment.Unopened (l : Listing) : Moment σ → Prop
  | idle _ => True
  | busy _ phase s => s.interpreter.Unopened l phase

section
variable [Host σ] {l : Listing} {frames : List Frame} {M M' : Moment σ} {past : List (Moment σ)}

theorem Next.unopened (hn : Next M M') (h : M.Ready l frames)
    (hf : ∀ frame ∈ frames, l.Unopened frame.line frame.pos) (hM : M.Unopened l) :
    ∃ l' frames', M'.Ready l' frames' ∧ (∀ frame ∈ frames', l'.Unopened frame.line frame.pos) ∧
    M'.Unopened l' := by
  by_cases hx : ∃ call s, M = .busy call .execute s
  · obtain ⟨call, s, rfl⟩ := hx
    have hends := Session.execute_unopened (s := s) h hf hM
    cases hn with
    | step _ hrun =>
      rw [show Session.execute s = _ from hrun] at hends
      exact hends
    | stop _ hrun =>
      rw [show Session.execute s = _ from hrun] at hends
      obtain ⟨frames', hsane, hf'⟩ := hends
      exact ⟨l, frames', hsane, hf', trivial⟩
    | rest => exact ⟨l, frames, h.sane, hf, trivial⟩
  -- No other step pushes a frame.
  obtain ⟨l', frames', hready, hfollows, hkeeps⟩ := hn.ready h
  refine ⟨l', frames', hready, fun frame hm => ?_, ?_⟩
  · obtain rfl | ⟨rfl, hsub | ⟨pushed, ⟨call, s, he, -⟩, -⟩⟩ := hfollows.kept
    · exact absurd hm List.not_mem_nil
    · exact hf frame (hsub.subset hm)
    · exact absurd ⟨call, s, he⟩ hx
  cases hn with
  | host | serve | refuse | stop | rest => exact trivial
  | @enter s s' line phase hrun =>
    have hends := Session.submit_enters (s := s) line h.sane
    unfold Session.Enters at hends
    rw [hrun] at hends
    exact Session.unopened_of_entered hends.1 hends.2.1 l'
  | @step s s' call phase phase' _ hrun =>
    have hends := Session.step_unopened (fun he => hx ⟨call, s, by rw [he]⟩) h hM
    rw [hrun] at hends
    exact hends l' hkeeps

end

namespace Session
variable [Host σ]

end Session

namespace Piece
variable {word : Option Keyword} {pieces : List Piece} {parts : List (List UInt8)}
  {typed : List UInt8}

/-- What was typed for a piece leaves no string open, and is as long as its text. -/
theorem TypedAs.openAfter {p : Piece} {part : List UInt8} (h : p.TypedAs part) :
    Case.openAfter none part = none := by
  cases p with
  | code text ht =>
    obtain ⟨rfl, -⟩ := h
    refine Case.openAfter_of_unquoted fun b hb => ?_
    rw [← Byte.isQuote_toUpper]
    exact ht _ (List.mem_map_of_mem hb)
  | literal quote chars hq hc =>
    rw [show part = quote :: chars ++ [quote] from h]
    exact Case.openAfter_literal hc hq
  | value | newline | told =>
    rw [show part = [] from h]
    rfl

end Piece

section
variable [Host σ] [Host τ]

end

end LineBasic
