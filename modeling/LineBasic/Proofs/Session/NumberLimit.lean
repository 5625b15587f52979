import LineBasic.Proofs.LineNumber
import LineBasic.Proofs.Session.Numbered
import LineBasic.Proofs.Session.Writing

namespace LineBasic

section
variable {blanks ds rest : List UInt8} (hb : ∀ b ∈ blanks, Byte.isBlank b = true)
  (hd : ∀ d ∈ ds, Byte.isDigit d = true) (hne : ds ≠ []) (hr : rest.head?.any Byte.isDigit = false)
include hb hd hne hr

/-- Digits after blanks are the number of a typed line if it can be read, and what follows is its
text. -/
theorem entry_of_digits :
    (Decimal.value ds < 65530 → entryNumber (blanks ++ (ds ++ rest)) = (Decimal.value ds).toUInt16 ∧
      entryText (blanks ++ (ds ++ rest)) = Lexeme.skipBlanks (Case.fold rest)) ∧
    (65530 ≤ Decimal.value ds → entryNumber (blanks ++ (ds ++ rest)) = 65535) := by
  have hkept : ∀ b ∈ blanks, Byte.isQuote b = false ∧ Byte.toUpper b = b := fun b hm =>
    ⟨Byte.isQuote_of_isBlank (hb b hm), Byte.toUpper_of_isBlank (hb b hm)⟩
  have hread : Lexeme.lineNumber (Case.fold (blanks ++ (ds ++ rest))) = Lexeme.lineNumber
      (ds ++ Case.fold rest) := by
    rw [Case.fold_append hkept, Case.fold_append_of_isDigit hd, Lexeme.lineNumber_append_blanks hb]
  obtain ⟨hsmall, hlarge⟩ :=
    Lexeme.lineNumber_append hd ((Case.head?_any_isDigit_fold rest).trans hr) (Or.inl hne)
  unfold entryNumber entryText
  rw [hread]
  refine ⟨fun h => ?_, hlarge⟩
  rw [hsmall h]
  exact ⟨rfl, rfl⟩

end

namespace Session
variable {σ : Type}

theorem token_list (text : List UInt8) :
    Lexeme.token Keyword.vocabulary (ascii "LIST" ++ text) = (some .list, Lexeme.skipBlanks text) :=
  rfl

theorem list_error {s : Session σ} [Host σ] {number : UInt16} {c : Cursor}
    (hread : s.interpreter.cursor.lineNumber = (number, c))
    (hend : c.skipBlanks.atEndOfLine = false) :
    list s = .error (.error (.malformed c.skipBlanks.pos .expectedEndOfLine))
      (s.movedTo c.skipBlanks.pos) := by
  have hcursor : (s.movedTo c.pos).interpreter.cursor = c := by
    apply cursor_movedTo
    have hc := s.interpreter.cursor.lineNumber_within
    rwa [hread] at hc
  have hcheck := expectEndOfLine_error (s := s.movedTo c.pos) (hcursor.symm ▸ hend)
  rw [hcursor] at hcheck
  unfold list
  rw [bind_of_ok (cursor_eq s), hread]
  exact (bind_of_ok (goTo_eq c s)).trans (bind_of_error hcheck)

variable [Host σ]

/-- A statement that begins with `LIST` lists from where its number stands. -/
theorem statement_list {s : Session σ} {text : List UInt8}
    (h : s.interpreter.cursor.rest = ascii "LIST" ++ text) :
    ∃ s', statement s = list s' ∧ s'.interpreter.memory = s.interpreter.memory ∧ s'.host = s.host ∧
      s'.interpreter.cursor.rest = Lexeme.skipBlanks text := by
  have htoken : s.interpreter.cursor.token Keyword.vocabulary =
      (some .list, s.interpreter.cursor.moveTo (Lexeme.skipBlanks text)) := by
    rw [Cursor.token, h, token_list]
  have hwithin := s.interpreter.cursor.moveTo_within (Lexeme.skipBlanks text)
  have hcursor := cursor_movedTo (s := s) hwithin
  generalize hc : s.interpreter.cursor.moveTo (Lexeme.skipBlanks text) = c at htoken hcursor
  refine ⟨(s.movedTo c.pos).noted (.statement (some .list) c.pos), ?_, rfl, rfl, ?_⟩
  · unfold statement
    rw [bind_of_ok (cursor_eq s), htoken]
    exact (bind_of_ok (goTo_eq c s)).trans rfl
  · show (s.movedTo c.pos).interpreter.cursor.rest = _
    rw [hcursor, ← hc]
    apply Cursor.rest_moveTo
    rw [h]
    exact (Lexeme.skipBlanks_suffix text).trans (List.suffix_append _ text)

/-- A line that is submitted and has room is stored, and the next line is asked for. -/
theorem enter_stored {s : Session σ} {l : Listing} {frames : List Frame} {number : UInt16}
    {text : List UInt8} (bytes : List UInt8) (hs : s.interpreter.memory.Sane l frames)
    (hnumber : entryNumber (s.interpreter.memory.cutLine bytes) = number)
    (htext : entryText (s.interpreter.memory.cutLine bytes) = text) (hzero : number ≠ 0)
    (hmax : number ≠ 65535) (hfit : l.Fits s.interpreter.memory.variablesBegin number text)
    (steps : Nat) :
    ∃ s' h, enter steps bytes s = .ok .prompt s' ∧
    s'.interpreter.memory.lines = .ok (l.put number text h).lines := by
  obtain ⟨s', hrun, -, h, frames', hs'⟩ := submit_stored bytes hs hnumber htext hzero hmax hfit
  exact ⟨s', h, enter_of_prompt hrun steps, Memory.lines_eq hs'.layout hs'.holds⟩

variable (hP : WritesThrough fun _ : σ => True)
include hP

theorem report_impossible (pos : Nat) (why : Diagnostic) (s : Session (Recorded σ)) :
    ∃ s', report (.impossible pos why) s = .ok .prompt s' ∧
    s'.interpreter.memory = s.interpreter.memory ∧
      s'.host.written = s.host.written ++ (ascii "How?" ++ [Byte.marker]) := by
  obtain ⟨host, -, hprint⟩ := writes_printLine hP (ascii "How?")
    (s.noted (.reported (.impossible pos why) s.interpreter.currentLine)) trivial
  have hreport : report (.impossible pos why) s = .ok .prompt
      { s.noted (.reported (.impossible pos why) s.interpreter.currentLine) with
        interpreter := { s.interpreter with currentLine := none }
        host := ⟨host, s.host.written ++ (ascii "How?" ++ [Byte.marker])⟩ } := by
    unfold report
    refine (bind_of_ok (show look (·.currentLine) s = .ok s.interpreter.currentLine s
      from rfl)).trans ?_
    refine (bind_of_ok (show note _ s = .ok () (s.noted _) from rfl)).trans ?_
    exact bind_of_ok hprint
  exact ⟨_, hreport, rfl, rfl⟩

theorem enter_refused {s : Session (Recorded σ)} {l : Listing} {frames : List Frame}
    (bytes : List UInt8) (hs : s.interpreter.memory.Sane l frames)
    (hmax : entryNumber (s.interpreter.memory.cutLine bytes) = 65535) (steps : Nat) :
    ∃ s', enter steps bytes s = .ok .prompt s' ∧ s'.interpreter.memory.lines = .ok l.lines ∧
      s'.host.written = s.host.written ++ (ascii "How?" ++ [Byte.marker]) := by
  have hm := hs.layout
  have htyped := Memory.typed_placed bytes hm
  have hplaced := hs.toSound.onlyGap (Memory.onlyGap_placed bytes hm)
  have htaken := hplaced.onlyGap (htyped.onlyGap_taken hplaced.layout)
  have hinvalid := accept_invalid (s := { s with interpreter := { s.interpreter with
    memory := s.interpreter.memory.placed (s.interpreter.memory.cutLine bytes)
    directText := none } }) hplaced htyped hmax
  obtain ⟨s', hreport, hmemory, hwritten⟩ := report_impossible hP _ _ _
  have hrun := ((submit_eq bytes hm).trans hinvalid).trans hreport
  refine ⟨s', enter_of_prompt hrun steps, ?_, hwritten⟩
  rw [hmemory]
  exact Memory.lines_eq htaken.layout htaken.holds

/-- `LIST` with a number and blanks after it: the lines from that number on are written if it can be
read, and otherwise the digits that are left unread are reported. -/
theorem statement_list_number {s : Session (Recorded σ)} {l : Listing}
    {blanks ds after : List UInt8} (hm : s.interpreter.memory.Layout)
    (hh : s.interpreter.memory.Holds l) (hb : ∀ b ∈ blanks, Byte.isBlank b = true)
    (hd : ∀ d ∈ ds, Byte.isDigit d = true) (hne : ds ≠ []) (ha : ∀ b ∈ after, Byte.isBlank b = true)
    (hrest : s.interpreter.cursor.rest = ascii "LIST" ++ (blanks ++ (ds ++ after))) :
    if Decimal.value ds < 65530 then
      ∃ s', statement s = .ok .restart s' ∧ s'.host.written = s.host.written ++
        ((l.onward (Decimal.value ds).toUInt16).map Line.display).flatMap (· ++ [Byte.marker])
    else
      ∃ pos s', statement s = .error (.error (.malformed pos .expectedEndOfLine)) s' ∧
        s'.host.written = s.host.written := by
  obtain ⟨s', hlist, hmemory, hhost, hcursor⟩ := statement_list hrest
  rw [Lexeme.skipBlanks_append hb, Lexeme.skipBlanks_digits hd hne] at hcursor
  have hdigit : after.head?.any Byte.isDigit = false := by
    cases after with
    | nil => rfl
    | cons b rest =>
      refine Bool.eq_false_iff.2 fun h => ?_
      have := Byte.isBlank_of_isDigit h
      rw [ha b List.mem_cons_self] at this
      cases this
  have hread : s'.interpreter.cursor.ReadsNumber [] ds :=
    Cursor.readsNumber hcursor (fun _ h => absurd h List.not_mem_nil) hd hne hdigit
  rw [hlist, ← hhost]
  rw [Cursor.ReadsNumber] at hread
  have hpassed (k : Nat) (hk : k ≤ ds.length) :
      Cursor.rest { s'.interpreter.cursor with pos := s'.interpreter.cursor.pos + (0 + k) } =
        ds.drop k ++ after := by
    rw [Nat.zero_add, Cursor.rest_add, hcursor, List.drop_append_of_le_length hk]
    rw [hcursor, List.length_append]
    omega
  split
  case isTrue hsmall =>
    rw [if_pos hsmall] at hread
    have hend : (Cursor.skipBlanks { s'.interpreter.cursor with
        pos := s'.interpreter.cursor.pos + (0 + ds.length) }).atEndOfLine = true := by
      rw [Cursor.atEndOfLine_iff, Cursor.rest_skipBlanks, hpassed _ (Nat.le_refl _),
        List.drop_length, List.nil_append]
      exact Lexeme.skipBlanks_of_all ha
    obtain ⟨s'', hrun, -, hwritten⟩ :=
      list_writes_onward hP (hmemory.symm ▸ hm) (hmemory.symm ▸ hh) hread hend trivial
    exact ⟨s'', hrun, hwritten⟩
  case isFalse hlarge =>
    rw [if_neg hlarge] at hread
    -- Some digits are left unread, and they are what stands before the end of the line.
    obtain ⟨front, back, rfl, hback, -, -, hread⟩ := hread
    refine ⟨_, _, list_error hread ?_, rfl⟩
    rw [← Bool.not_eq_true, Cursor.atEndOfLine_iff, Cursor.rest_skipBlanks, List.length_nil,
      hpassed _ (by simp), List.drop_left, Lexeme.skipBlanks_digits
        (fun d h => hd d (List.mem_append_right _ h)) hback]
    exact List.append_ne_nil_of_left_ne_nil hback after

/-- What comes of entering a line with this number and text into a program: it takes its place among
the lines if the number can be read, and otherwise the program stays as it is and the line is
answered with a question. -/
def EntersAt (s : Session (Recorded σ)) (before : List Line) (n : Nat) (text line : List UInt8) :
    Prop :=
  ∀ steps, ∃ s', enter steps line s = .ok .prompt s' ∧
    if n < 65530 then
      s'.interpreter.memory.lines =
        .ok (before.filter (·.number < n.toUInt16) ++ ⟨n.toUInt16, text⟩ :: before.filter
          (n.toUInt16 < ·.number))
    else
      s'.interpreter.memory.lines = .ok before ∧
        s'.host.written = s.host.written ++ (ascii "How?" ++ [Byte.marker])

/-- What comes of listing a program from this number on: the lines from there are written if the
number can be read, and otherwise nothing is written and the statement is malformed. -/
def ListsFrom (s : Session (Recorded σ)) (before : List Line) (n : Nat) : Prop :=
  if n < 65530 then
    ∃ s', statement s = .ok .restart s' ∧ s'.host.written = s.host.written ++
      ((before.filter (n.toUInt16 ≤ ·.number)).map Line.display).flatMap (· ++ [Byte.marker])
  else
    ∃ pos s', statement s = .error (.error (.malformed pos .expectedEndOfLine)) s' ∧
      s'.host.written = s.host.written

theorem entersAt {s : Session (Recorded σ)} {l : Listing} {frames : List Frame}
    {blanks ds rest : List UInt8} (hs : s.interpreter.memory.Sane l frames)
    (hb : ∀ b ∈ blanks, Byte.isBlank b = true) (hd : ∀ d ∈ ds, Byte.isDigit d = true)
    (hne : ds ≠ []) (hr : rest.head?.any Byte.isDigit = false)
    (hcut : s.interpreter.memory.cutLine (blanks ++ (ds ++ rest)) = blanks ++ (ds ++ rest))
    (hpos : Decimal.value ds ≠ 0) (htext : Lexeme.skipBlanks (Case.fold rest) ≠ [])
    (hroom : extent l.lines + (Lexeme.skipBlanks (Case.fold rest)).length + 8 ≤
      s.interpreter.memory.variablesBegin) :
    s.EntersAt l.lines (Decimal.value ds) (Lexeme.skipBlanks (Case.fold rest))
      (blanks ++ (ds ++ rest)) := by
  intro steps
  obtain ⟨hsmall, hlarge⟩ := entry_of_digits hb hd hne hr
  rw [← hcut] at hsmall hlarge
  by_cases h : Decimal.value ds < 65530
  · obtain ⟨hnumber, hentry⟩ := hsmall h
    have hnat : (Decimal.value ds).toUInt16.toNat = Decimal.value ds :=
      UInt16.toNat_ofNat_of_lt' (show Decimal.value ds < 65536 by omega)
    have hzero : (Decimal.value ds).toUInt16 ≠ 0 := by
      intro he
      rw [he] at hnat
      exact hpos hnat.symm
    have hmax : (Decimal.value ds).toUInt16 ≠ 65535 := by
      intro he
      rw [he] at hnat
      have : (65535 : UInt16).toNat = 65535 := rfl
      omega
    obtain ⟨s', hstorable, hrun, hlines⟩ :=
      enter_stored (blanks ++ (ds ++ rest)) hs hnumber hentry hzero hmax
        (l.fits_beside _ hroom) steps
    refine ⟨s', hrun, ?_⟩
    rw [if_pos h, hlines, Listing.lines_put, Listing.entry, if_neg htext]
    rfl
  · obtain ⟨s', hrun, hlines, hwritten⟩ := enter_refused hP _ hs (hlarge (Nat.not_lt.1 h)) steps
    refine ⟨s', hrun, ?_⟩
    rw [if_neg h]
    exact ⟨hlines, hwritten⟩

end Session

/-- The numbers of lines go up to 65529. Digits that denote such a number are read whole, whatever
blanks stand before them; a line is stored under it, and the program is listed from it on. A larger
number is read as 65535 before its last digits are; no line is stored under it, and none is listed.
-/
theorem History.number_limit {σ : Type} [Host σ] (hP : WritesThrough fun _ : σ => True)
    {settings : Settings} {host : Recorded σ} {threshold : Option Severity}
    {past : List (Moment (Recorded σ))} {M : Moment (Recorded σ)}
    (h : History (Session.start settings host threshold) past M) {blanks ds rest : List UInt8}
    (hb : ∀ b ∈ blanks, Byte.isBlank b = true) (hd : ∀ d ∈ ds, Byte.isDigit d = true)
    (hne : ds ≠ []) (hr : rest.head?.any Byte.isDigit = false) :
    (∀ c : Cursor, c.rest = blanks ++ (ds ++ rest) → c.ReadsNumber blanks ds) ∧
    ∃ before free, M.memory.lines = .ok before ∧ M.memory.free = .ok free ∧
      (∀ s, M = .idle s → Decimal.value ds ≠ 0 → Lexeme.skipBlanks (Case.fold rest) ≠ [] →
        (∀ b ∈ blanks ++ (ds ++ rest), b ≠ Byte.carriageReturn ∧ b ≠ Byte.marker) →
        (blanks ++ (ds ++ rest)).length ≤ min (free - 4) 252 →
        (Lexeme.skipBlanks (Case.fold rest)).length + 8 ≤ free →
        s.EntersAt before (Decimal.value ds) (Lexeme.skipBlanks (Case.fold rest))
          (blanks ++ (ds ++ rest))) ∧
      ∀ call s, M = .busy call .execute s → (∀ b ∈ rest, Byte.isBlank b = true) →
        s.interpreter.cursor.rest = ascii "LIST" ++ (blanks ++ (ds ++ rest)) →
        s.ListsFrom before (Decimal.value ds) := by
  obtain ⟨l, frames, hready⟩ := h.exists_ready
  have hsane := hready.sane
  have hm := hsane.layout
  refine ⟨fun c hc => Cursor.readsNumber hc hb hd hne hr, l.lines, _,
    Memory.lines_eq hm hsane.holds,
    Memory.free_eq_extent hm hsane.holds, ?_, ?_⟩
  · rintro s rfl hpos htext hline hlength hfree
    have hs : s.interpreter.memory.Sane l frames := hready
    have hcut : s.interpreter.memory.cutLine (blanks ++ (ds ++ rest)) = blanks ++ (ds ++ rest) := by
      rw [Memory.cutLine_eq _ hline, Memory.entryRoom_eq hs.layout, hs.holds.programEnd_eq]
      exact List.take_of_length_le hlength
    apply Session.entersAt hP hs hb hd hne hr hcut hpos htext
    have hv : (Moment.idle s).memory.variablesBegin = s.interpreter.memory.variablesBegin := rfl
    omega
  · rintro call s rfl hblank hrest
    exact Session.statement_list_number hP hm hsane.holds hb hd hne hblank hrest

/-- The largest number that can be read, with a zero before it, is entered and listed. -/
theorem History.number_limit_of_start :
    (∀ c : Cursor, c.rest = ascii "\t 065529END" → c.ReadsNumber (ascii "\t ") (ascii "065529")) ∧
    ∃ s : Session (Recorded Script), ∃ before, s.interpreter.memory.lines = .ok before ∧
      s.EntersAt before 65529 (ascii "END") (ascii "\t 065529END") := by
  have hwrites : WritesThrough fun _ : Script => True := fun b h _ => ⟨_, rfl, trivial⟩
  have hbegun : History (Session.start { ramSize := 1024 } ({ host := {} } : Recorded Script) none)
    []
      (.idle (Session.start { ramSize := 1024 } { host := {} } none)) := .start
  have hblanks : ∀ b ∈ ascii "\t ", Byte.isBlank b = true := by decide
  have hdigits : ∀ d ∈ ascii "065529", Byte.isDigit d = true := by decide
  have hrest : (ascii "END").head?.any Byte.isDigit = false := rfl
  obtain ⟨hread, before, free, hlines, hfree, henter, -⟩ :=
    History.number_limit hwrites hbegun hblanks hdigits (by decide) hrest
  refine ⟨hread, _, before, hlines, ?_⟩
  have hstart : (Session.start { ramSize := 1024 } ({ host := {} } : Recorded Script)
    none).interpreter.memory.free =
      .ok 922 := by
    decide
  generalize Session.start { ramSize := 1024 } ({ host := {} } : Recorded Script) none = s at *
  obtain rfl : 922 = free := Except.ok.inj (hstart.symm.trans hfree)
  exact henter s rfl (by decide) (by decide) (by decide) (by decide) (by decide)

/-- The digits of 65530 are not all read, and what is read is another number. -/
theorem Cursor.lineNumber_65530 :
    Decimal.value (ascii "65530") = 65530 ∧
      (Cursor.mk (ascii "65530").toArray 0).lineNumber.1 = 65535 ∧
      (Cursor.mk (ascii "65530").toArray 0).lineNumber.2.pos = 4 := by
  decide

end LineBasic
