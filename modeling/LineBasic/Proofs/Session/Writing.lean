import LineBasic.Proofs.Cursor
import LineBasic.Proofs.Host
import LineBasic.Proofs.Memory.Records
import LineBasic.Proofs.Session.Scanning
import LineBasic.Session.Statement

namespace LineBasic
variable {σ ι α β : Type}

/-- Whatever is written to a host of which `P` holds goes through, and `P` still holds of the host.
-/
def WritesThrough [Host σ] (P : σ → Prop) : Prop :=
  ∀ b h, P h → ∃ h', Host.write b h = .ok () h' ∧ P h'

theorem Deaf.writesThrough [Host σ] {input : σ → ι} (h : Deaf input) (x : ι) :
    WritesThrough fun host : σ => input host = x := by
  intro b host hx
  obtain ⟨host', hw, hi⟩ := h.write b host
  exact ⟨host', hw, hi.trans hx⟩

namespace Session

def Writes (P : σ → Prop) (bytes : List UInt8) (a : α) (act : Act (Recorded σ) α) : Prop :=
  ∀ s, P s.host.host → ∃ host, P host ∧ act s = .ok a { s with host :=
    ⟨host, s.host.written ++ bytes⟩ }

variable {P : σ → Prop}

theorem writes_pure (a : α) : Writes P [] a (pure a) := by
  intro s hP
  refine ⟨s.host.host, hP, ?_⟩
  rw [List.append_nil]
  rfl

theorem Writes.bind {bytes bytes' : List UInt8} {a : α} {b : β} {x : Act (Recorded σ) α}
    {f : α → Act (Recorded σ) β} (hx : Writes P bytes a x) (hf : Writes P bytes' b (f a)) :
    Writes P (bytes ++ bytes') b (x >>= f) := by
  intro s hP
  obtain ⟨host, hP', hr⟩ := hx s hP
  obtain ⟨host', hP'', hr'⟩ := hf { s with host := ⟨host, s.host.written ++ bytes⟩ } hP'
  refine ⟨host', hP'', ?_⟩
  rw [bind_of_ok hr, hr', List.append_assoc]

section
variable [Host σ] (hP : WritesThrough P)
include hP

theorem writes_writeByte (b : UInt8) : Writes P [b] () (writeByte b) := by
  intro s hs
  obtain ⟨host, hw, hP'⟩ := hP b s.host.host hs
  refine ⟨host, hP', ?_⟩
  simp only [writeByte, onHost, Host.write, hw]

theorem writes_print (bytes : List UInt8) : Writes P bytes () (print bytes) := by
  induction bytes with
  | nil => exact writes_pure ()
  | cons b rest ih => exact (writes_writeByte hP b).bind ih

theorem writes_newline : Writes P [Byte.marker] () newline :=
  writes_writeByte hP _

theorem writes_printLine (line : List UInt8) :
    Writes P (line ++ [Byte.marker]) () (printLine line) :=
  (writes_print hP line).bind (writes_newline hP)

theorem writes_printLines (lines : List Line) :
    Writes P ((lines.map Line.display).flatMap (· ++ [Byte.marker])) () (printLines lines) := by
  induction lines with
  | nil => exact writes_pure ()
  | cons line rest ih => exact (writes_printLine hP line.display).bind ih

/-- Where a number ends the line, `LIST` writes the lines from that number on. -/
theorem list_writes_onward {s : Session (Recorded σ)} {l : Listing} {number : UInt16} {c : Cursor}
    (hm : s.interpreter.memory.Layout) (hh : s.interpreter.memory.Holds l)
    (hread : s.interpreter.cursor.lineNumber = (number, c)) (hend : c.skipBlanks.atEndOfLine = true)
    (hs : P s.host.host) :
    ∃ s', list s = .ok .restart s' ∧ P s'.host.host ∧
      s'.host.written = s.host.written ++ ((l.onward number).map Line.display).flatMap
        (· ++ [Byte.marker]) := by
  have hcursor : (s.movedTo c.pos).interpreter.cursor = c := by
    apply cursor_movedTo
    have hc := s.interpreter.cursor.lineNumber_within
    rwa [hread] at hc
  have hcheck : expectEndOfLine (s.movedTo c.pos) = .ok () (s.movedTo c.skipBlanks.pos) := by
    rw [expectEndOfLine_eq (hcursor.symm ▸ hend), hcursor]
    rfl
  have hlines : lookIn (·.linesFrom number) (s.movedTo c.skipBlanks.pos) = .ok
      (l.onward number) _ :=
    lookIn_of_ok (f := (·.linesFrom number)) (Memory.linesFrom_eq hm hh number)
  obtain ⟨host, hP', hprint⟩ := writes_printLines hP (l.onward number)
    (s.movedTo c.skipBlanks.pos) hs
  have hlist : list s = .ok .restart { s.movedTo c.skipBlanks.pos with
      host := ⟨host, s.host.written ++ ((l.onward number).map Line.display).flatMap
        (· ++ [Byte.marker])⟩ } := by
    unfold list
    rw [bind_of_ok (cursor_eq s), hread]
    refine (bind_of_ok (goTo_eq c s)).trans ((bind_of_ok hcheck).trans
      ((bind_of_ok hlines).trans ?_))
    rw [bind_of_ok hprint]
    rfl
  exact ⟨_, hlist, hP', rfl⟩

/-- At the end of a line, `LIST` writes all lines of the program. -/
theorem list_writes {s : Session (Recorded σ)} {l : Listing} (hm : s.interpreter.memory.Layout)
    (hh : s.interpreter.memory.Holds l) (hend : s.interpreter.cursor.atEndOfLine = true)
    (hs : P s.host.host) :
    ∃ s', list s = .ok .restart s' ∧ P s'.host.host ∧
      s'.host.written = s.host.written ++ (l.lines.map Line.display).flatMap
      (· ++ [Byte.marker]) := by
  have hrest : s.interpreter.cursor.rest = [] :=
    (Cursor.rest_eq_nil_iff _).2 (of_decide_eq_true hend)
  have hmove : s.interpreter.cursor.moveTo [] = s.interpreter.cursor := by
    rw [Cursor.moveTo, hrest]
    rfl
  have hnumber : s.interpreter.cursor.lineNumber = (0, s.interpreter.cursor) := by
    unfold Cursor.lineNumber
    rw [hrest]
    exact congrArg (0, ·) hmove
  have hblanks : s.interpreter.cursor.skipBlanks = s.interpreter.cursor := by
    rw [Cursor.skipBlanks, hrest]
    exact hmove
  have hall : l.onward 0 = l.lines := List.filter_eq_self.2 fun _ _ => decide_eq_true UInt16.zero_le
  have hlist := list_writes_onward hP hm hh hnumber (by rwa [hblanks]) hs
  rwa [hall] at hlist

end
end Session
end LineBasic
