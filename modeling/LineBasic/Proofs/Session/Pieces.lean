import LineBasic.Proofs.Expr.Unquoted
import LineBasic.Proofs.Cursor
import LineBasic.Keyword

namespace LineBasic

inductive Piece
  /-- Text that is read and not shown. -/
  | code (text : List UInt8) (h : Unquoted text)
  /-- A string, which is shown without its quotes. -/
  | literal (quote : UInt8) (chars : List UInt8) (hq : Byte.isQuote quote = true)
    (hc : quote ∉ chars)
  /-- The value of what has been read. -/
  | value (x : Int16)
  /-- The end of a line that has been printed. -/
  | newline
  /-- What a statement shows that prints no items. -/
  | told (bytes : List UInt8)

namespace Piece

/-- The text of a piece. -/
def source : Piece → List UInt8
  | code text _ => text
  | literal quote chars _ _ => quote :: chars ++ [quote]
  | value _ | newline | told _ => []

/-- What is shown for a piece. -/
def shown : Piece → List UInt8
  | code _ _ => []
  | literal _ chars _ _ => chars
  | value x => Decimal.signed x.toInt
  | newline => [Byte.marker]
  | told bytes => bytes

/-- The piece was typed like this: a string as it is, and all else in either case. -/
def TypedAs : Piece → List UInt8 → Prop
  | code text _, typed => typed.map Byte.toUpper = text ∧ ∀ b ∈ text, Byte.isLower b = false
  | literal quote chars _ _, typed => typed = quote :: chars ++ [quote]
  | value _, typed | newline, typed | told _, typed => typed = []

def Of (word : Option Keyword) : Piece → Prop
  | code _ _ => True
  | literal _ _ _ _ | value _ | newline => word = some .print ∨ word = some .printSign
  | told _ => word = some .list ∨ word = some .mem

theorem openAfter_source (p : Piece) : Case.openAfter none p.source = none := by
  cases p with
  | code text h => exact Case.openAfter_of_unquoted h
  | literal quote chars hq hc => exact Case.openAfter_literal hc hq
  | value | newline | told => rfl

theorem openAfter_sources (pieces : List Piece) :
    Case.openAfter none (pieces.flatMap source) = none := by
  induction pieces with
  | nil => rfl
  | cons p pieces ih => rw [List.flatMap_cons, Case.openAfter_append, p.openAfter_source, ih]

end Piece

namespace Cursor
variable {c c' c'' : Cursor} {text more : List UInt8}

structure Passed (c : Cursor) (text : List UInt8) (c' : Cursor) : Prop where
  text_eq : c'.text = c.text
  rest_eq : c.rest = text ++ c'.rest
  pos_eq : c'.pos = c.pos + text.length

theorem Passed.refl (c : Cursor) : c.Passed [] c :=
  ⟨rfl, rfl, rfl⟩

theorem Passed.trans (h : c.Passed text c') (h' : c'.Passed more c'') :
    c.Passed (text ++ more) c'' := by
  refine ⟨h'.text_eq.trans h.text_eq, ?_, ?_⟩
  · rw [h.rest_eq, h'.rest_eq, List.append_assoc]
  · rw [h'.pos_eq, h.pos_eq, List.length_append, Nat.add_assoc]

theorem Passed.within (h : c.Passed text c') : c.Within c' := by
  have hlength := congrArg List.length h.rest_eq
  have hpos := h.pos_eq
  have hle := le_endOfLine c.text c.pos
  rw [length_rest, List.length_append] at hlength
  exact ⟨h.text_eq, by omega, by omega⟩

theorem passed_moveTo {after : List UInt8} (h : c.rest = text ++ after) :
    c.Passed text (c.moveTo after) := by
  have hrest := c.rest_moveTo (h ▸ List.suffix_append text after)
  refine ⟨rfl, by rw [hrest, h], ?_⟩
  show c.pos + (c.rest.length - after.length) = _
  rw [h, List.length_append, Nat.add_sub_cancel]

theorem passed_advance {b : UInt8} (hb : b ≠ Byte.marker) (h : c.peek = b) :
    c.Passed [b] c.advance := by
  rw [peek_eq_head?] at h
  cases hrest : c.rest with
  | nil =>
    rw [hrest] at h
    exact absurd h.symm hb
  | cons first rest =>
    rw [hrest] at h
    obtain rfl : first = b := h
    have hadd := c.rest_add (show 1 ≤ c.rest.length by rw [hrest, List.length_cons]; omega)
    rw [hrest] at hadd
    have hadvance : c.advance.rest = rest := hadd
    exact ⟨rfl, by rw [hadvance]; exact hrest, rfl⟩

def Skips (c c' : Cursor) : Prop :=
  ∃ text, Unquoted text ∧ c.Passed text c'

namespace Skips

theorem within (h : c.Skips c') : c.Within c' := by
  obtain ⟨text, -, hpassed⟩ := h
  exact hpassed.within

theorem trans (h : c.Skips c') (h' : c'.Skips c'') : c.Skips c'' := by
  obtain ⟨text, ht, hp⟩ := h
  obtain ⟨more, hm, hp'⟩ := h'
  exact ⟨text ++ more, ht.append hm, hp.trans hp'⟩

theorem moveTo {after : List UInt8} (h : Passes c.rest after) : c.Skips (c.moveTo after) := by
  obtain ⟨text, he, ht⟩ := h
  exact ⟨text, ht, passed_moveTo he⟩

theorem skipBlanks (c : Cursor) : c.Skips c.skipBlanks :=
  moveTo (.skipBlanks c.rest)

theorem advance {b : UInt8} (hb : b ≠ Byte.marker) (hq : Byte.isQuote b = false) (h : c.peek = b) :
    c.Skips c.advance :=
  ⟨[b], fun _ hm => List.mem_singleton.1 hm ▸ hq, passed_advance hb h⟩

theorem token {τ : Type} {vocabulary : Vocabulary τ} (hv : vocabulary.Plain) {found : Option τ}
    (h : c.token vocabulary = (found, c')) : c.Skips c' := by
  cases h
  exact moveTo (.token hv c.rest)

theorem lineNumber (c : Cursor) : c.Skips c.lineNumber.2 :=
  moveTo (.lineNumber c.rest)

theorem expression (c : Cursor) : c.Skips c.expression.2 :=
  moveTo (.expression c.rest)

theorem letter {v : Variable} (h : c.letter? = some v) : c.Skips c.advance := by
  rw [letter?] at h
  cases hrest : c.rest with
  | nil =>
    rw [hrest] at h
    cases h
  | cons b rest =>
    rw [hrest] at h
    have hpeek : c.peek = b := by rw [peek_eq_head?, hrest]; rfl
    have hmarker : b ≠ Byte.marker := fun he => c.marker_notMem_rest
      (he ▸ hrest ▸ List.mem_cons_self)
    obtain ⟨passed, he, hp⟩ := Passes.letter h
    obtain rfl : passed = [b] := List.append_cancel_right
      (he.symm.trans (List.singleton_append).symm)
    exact advance hmarker (hp b (List.mem_singleton_self b)) hpeek

theorem expect {b : UInt8} (hb : b ≠ Byte.marker) (hq : Byte.isQuote b = false) :
    c.Skips (c.expect b).2 := by
  unfold Cursor.expect
  dsimp only
  split
  · rename_i hp
    exact (skipBlanks c).trans ((advance hb hq hp).trans (skipBlanks _))
  · exact skipBlanks c

end Skips

theorem passed_of_quoted? {literal : List UInt8} (h : c.quoted? = some (literal, c')) :
    ∃ quote, Byte.isQuote quote = true ∧ quote ∉ literal ∧
    c.Passed (quote :: literal ++ [quote]) c' := by
  obtain ⟨⟨found, after⟩, hfound, he⟩ := Option.map_eq_some_iff.1 h
  cases he
  obtain ⟨quote, hq, hc, hrest⟩ := Lexeme.eq_of_quoted? hfound
  refine ⟨quote, hq, hc, passed_moveTo ?_⟩
  rw [hrest, List.append_assoc]
  rfl

end Cursor
end LineBasic
