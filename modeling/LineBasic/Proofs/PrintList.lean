import LineBasic.Proofs.Cursor
import LineBasic.Proofs.Expr.Blanks
import LineBasic.Proofs.Outcome

namespace LineBasic

theorem Byte.eq_of_isQuote {b : UInt8} (h : isQuote b = true) : b = byte '"' ∨ b = byte '\'' := by
  simpa only [isQuote, Bool.or_eq_true, decide_eq_true_eq] using h

theorem Byte.not_isBlank_of_isQuote {b : UInt8} (h : isQuote b = true) :
    isBlank b = false ∧ b ≠ byte ':' := by
  obtain rfl | rfl := eq_of_isQuote h
  · decide
  · decide

abbrev Blanks := { text : List UInt8 // ∀ b ∈ text, Byte.isBlank b = true }

/-- What a print list shows: a string in either kind of quotes, or the value of an expression. -/
inductive PrintItem
  | literal (quote : UInt8) (chars : List UInt8) (hq : Byte.isQuote quote = true)
    (hc : quote ∉ chars)
  /-- The expression may be spelled with blanks where they are skipped. -/
  | value (p : Phrase .relation) (text : List UInt8) (h : p.Spaced false text)

namespace PrintItem

def source : PrintItem → List UInt8
  | literal quote chars _ _ => quote :: chars ++ [quote]
  | value _ text _ => text

/-- What is shown for an item: the bytes of the string, or the decimal digits of the value with its
sign. -/
def render (s : Surroundings) : PrintItem → EStateM Diagnostic Generator (List UInt8)
  | literal _ chars _ _ => pure chars
  | value p _ _ => do return Decimal.signed (← p.reckon s false).toInt

/-- What is shown for some items, from left to right. -/
def renderAll (s : Surroundings) : List PrintItem → EStateM Diagnostic Generator (List UInt8)
  | [] => pure []
  | item :: rest => do
    let shown ← item.render s
    let more ← renderAll s rest
    return shown ++ more

def EndsBefore (after : List UInt8) : PrintItem → Prop
  | literal _ _ _ _ => True
  | value p text _ => (Expr.readRelation (text ++ after)).parts = (p.expr false, p.left after)

/-- An item begins with a byte that neither is skipped nor ends a statement. -/
theorem exists_cons (item : PrintItem) :
    ∃ b rest, item.source = b :: rest ∧ Byte.isBlank b = false ∧ b ≠ byte ':' := by
  cases item with
  | literal quote chars hq hc =>
    exact ⟨_, _, rfl, Byte.not_isBlank_of_isQuote hq⟩
  | value p text h =>
    obtain ⟨b, rest, rfl, hblank⟩ := h.not_blank
    refine ⟨b, rest, rfl, by simpa using hblank, ?_⟩
    rintro rfl
    obtain ⟨_, _, he, hb⟩ := h.opens
    obtain rfl := (List.cons.inj he).1
    split at hb
    · revert hb
      decide
    · revert hb
      decide

/-- Before a separator or the end of a statement an item ends, whatever blanks follow it. -/
theorem endsBefore_of_ended (item : PrintItem) (blanks : Blanks) {after : List UInt8}
    (h : Expr.Ended after) :
    item.EndsBefore (blanks.val ++ after) := by
  cases item with
  | literal quote chars hq hc => exact trivial
  | value p text hx =>
    exact h.parts_readRelation hx blanks.property

end PrintItem

namespace Cursor
variable {c : Cursor} {text after : List UInt8}

theorem skipBlanks_eq_past (blanks : Blanks) (h : c.rest = blanks.val ++ after)
    (ha : Lexeme.skipBlanks after = after) : c.skipBlanks = c.past blanks.val := by
  have hskip : Lexeme.skipBlanks c.rest = after := by
    rw [h, Lexeme.skipBlanks_append blanks.property, ha]
  rw [skipBlanks, hskip, moveTo_eq_past h]

theorem skipBlanks_token {τ : Type} (c : Cursor) (vocabulary : Vocabulary τ) :
    (c.token vocabulary).2.skipBlanks = (c.token vocabulary).2 := by
  have hrest : (c.token vocabulary).2.rest = (Lexeme.token vocabulary c.rest).2 :=
    c.rest_moveTo (Lexeme.token_suffix vocabulary c.rest)
  apply skipBlanks_eq_self
  rw [hrest]
  unfold Lexeme.token
  dsimp only
  split
  · exact Lexeme.skipBlanks_skipBlanks _
  · exact Lexeme.skipBlanks_skipBlanks _

theorem peek_of_rest {b : UInt8} (h : c.rest = b :: after) : c.peek = b := by
  rw [peek_eq_head?, h]
  rfl

end Cursor

/-- A statement ends before this text: it is at the end of the line or begins with a colon. -/
def EndsStatement (text : List UInt8) : Prop :=
  text = [] ∨ text.head? = some (byte ':')

theorem EndsStatement.ended {text : List UInt8} (h : EndsStatement text) : Expr.Ended text := by
  rintro b rest rfl
  obtain hnil | hcolon := h
  · cases hnil
  · rw [Option.some.inj hcolon]
    exact List.mem_cons_self

theorem EndsStatement.skipBlanks_eq {text : List UInt8} (h : EndsStatement text) :
    Lexeme.skipBlanks text = text :=
  h.ended.skipBlanks_eq

theorem EndsStatement.not_clean {text : List UInt8} (h : EndsStatement text) :
    ¬ (Expr.readRelation text).parts.1.Clean := by
  cases text with
  | nil =>
    apply Expr.not_clean_readRelation rfl
    rw [Expr.parts_readPrimary rfl]
    exact id
  | cons b rest =>
    obtain hnil | hcolon := h
    · cases hnil
    obtain rfl := Option.some.inj hcolon
    apply Expr.not_clean_readRelation rfl
    rw [parts_readPrimary_other rest (by decide) (by decide) (by decide) (by decide),
      if_neg (by decide)]
    exact id

theorem Cursor.atEndOfStatement_iff (c : Cursor) :
    c.atEndOfStatement = true ↔ EndsStatement c.rest := by
  rw [atEndOfStatement, Bool.or_eq_true, decide_eq_true_eq, decide_eq_true_eq, ← rest_eq_nil_iff]
  refine or_congr_right ?_
  rw [peek_eq_head?]
  cases c.rest with
  | nil => exact ⟨fun h => absurd h (by decide), fun h => by cases h⟩
  | cons b rest => exact ⟨fun h => congrArg some h, fun h => Option.some.inj h⟩

theorem PrintItem.not_endsStatement (item : PrintItem) (before : Blanks) (rest : List UInt8) :
    ¬ EndsStatement (Lexeme.skipBlanks (before.val ++ (item.source ++ rest))) := by
  obtain ⟨b, text, htext, hblank, hcolon⟩ := item.exists_cons
  have hskip : Lexeme.skipBlanks (before.val ++ (item.source ++ rest)) = b :: (text ++ rest) := by
    rw [Lexeme.skipBlanks_append before.property, htext]
    exact List.dropWhile_cons_of_neg (by rw [hblank]; exact Bool.false_ne_true)
  rw [hskip]
  rintro (hnil | hhead)
  · cases hnil
  · exact hcolon (Option.some.inj hhead)

inductive Separator
  | comma | semicolon
  deriving DecidableEq

namespace Separator

def byte : Separator → UInt8
  | comma => LineBasic.byte ','
  | semicolon => LineBasic.byte ';'

def joins : Separator → Bool
  | comma => false
  | semicolon => true

end Separator

structure PrintEntry where
  before : Blanks
  item : PrintItem
  after : Blanks
  separator : Separator

def PrintEntry.source (entry : PrintEntry) : List UInt8 :=
  entry.before.val ++ (entry.item.source ++ (entry.after.val ++ [entry.separator.byte]))

/-- Items joined by separators, and a semicolon behind the last of them or none. -/
structure PrintList where
  front : List PrintEntry
  before : Blanks
  last : PrintItem
  after : Blanks
  /-- The blanks behind a semicolon that ends the list. -/
  trailing : Option Blanks

namespace PrintList

def items (list : PrintList) : List PrintItem :=
  list.front.map (·.item) ++ [list.last]

def separators (list : PrintList) : List Separator :=
  list.front.map (·.separator) ++ if list.trailing.isSome then [.semicolon] else []

def source (list : PrintList) : List UInt8 :=
  list.front.flatMap (·.source) ++ (list.before.val ++ (list.last.source ++ (list.after.val ++
    list.trailing.elim [] (Separator.semicolon.byte :: ·.val))))

/-- A list without a semicolon ends the line. -/
def terminator (list : PrintList) : List UInt8 :=
  if .semicolon ∈ list.separators then [] else [Byte.marker]

end PrintList

/-- A print list that has been begun does not end its statement. -/
theorem PrintEntry.not_endsStatement {entries : List PrintEntry} {rest : List UInt8}
    (h : entries = [] → ¬ EndsStatement (Lexeme.skipBlanks rest)) :
    ¬ EndsStatement (Lexeme.skipBlanks (entries.flatMap (·.source) ++ rest)) := by
  cases entries with
  | nil => exact h rfl
  | cons entry entries =>
    simp only [List.flatMap_cons, source, List.append_assoc]
    exact entry.item.not_endsStatement _ _

theorem PrintEntry.length_le (entries : List PrintEntry) :
    entries.length ≤ (entries.flatMap (·.source)).length := by
  induction entries with
  | nil => exact Nat.le_refl _
  | cons entry entries ih =>
    have hentry : 1 ≤ entry.source.length := by
      simp only [source, List.length_append, List.length_singleton]
      omega
    rw [List.flatMap_cons, List.length_append, List.length_cons]
    omega

/-- What breaks a print list off, and what is still shown for it. The separator is the one before
it, if there is one. -/
inductive PrintFlaw (s : Surroundings) (g : Generator) (before : Option Separator) : List UInt8 →
    List UInt8 → Prop
  /-- An item whose evaluation faults. -/
  | fault {item : PrintItem} {after : List UInt8} {why : Diagnostic} {g' : Generator}
    (hends : item.EndsBefore after)
      (hr : item.render s g = .error why g') : PrintFlaw s g before (item.source ++ after) []
  /-- What begins like an expression and is none. -/
  | malformed {b : UInt8} {rest : List UInt8} (hblank : Byte.isBlank b = false)
    (hquote : Byte.isQuote b = false)
      (hcolon : b ≠ byte ':') (h : ¬ (Expr.readRelation (b :: rest)).parts.1.Clean) :
        PrintFlaw s g before (b :: rest) []
  /-- A string that is not closed before the line ends. -/
  | unterminated {quote : UInt8} {chars : List UInt8} (hq : Byte.isQuote quote = true)
    (hc : quote ∉ chars) :
      PrintFlaw s g before (quote :: chars) []
  /-- An item that neither a separator nor the end of the statement follows. The item is shown. -/
  | misfollowed {item : PrintItem} {after : Blanks} {b : UInt8} {rest shown : List UInt8}
    {g' : Generator}
      (hends : item.EndsBefore (after.val ++ b :: rest)) (hr : item.render s g = .ok shown g')
      (hblank : Byte.isBlank b = false) (hb : b ∉ [byte ',', byte ';', byte ':']) :
      PrintFlaw s g before (item.source ++ (after.val ++ b :: rest)) shown
  /-- The end of the statement behind a comma. -/
  | missing {text : List UInt8} (hcomma : before = some .comma) (h : EndsStatement text) :
    PrintFlaw s g before text []

/-- What breaks a list off ends the statement only behind a comma. -/
theorem PrintFlaw.not_endsStatement {s : Surroundings} {g : Generator} {sep : Option Separator}
    {text shown : List UInt8} (h : PrintFlaw s g sep text shown) (hsep : sep ≠ some .comma)
    (before : Blanks) : ¬ EndsStatement (Lexeme.skipBlanks (before.val ++ text)) := by
  have hfirst {b : UInt8} {rest : List UInt8} (hblank : Byte.isBlank b = false)
    (hcolon : b ≠ byte ':') :
      ¬ EndsStatement (Lexeme.skipBlanks (before.val ++ b :: rest)) := by
    rw [Lexeme.skipBlanks_append before.property, Expr.skipBlanks_cons
      (by rw [hblank]; exact Bool.false_ne_true)]
    rintro (hnil | hhead)
    · cases hnil
    · exact hcolon (Option.some.inj hhead)
  cases h with
  | fault => exact PrintItem.not_endsStatement _ _ _
  | malformed hblank _ hcolon => exact hfirst hblank hcolon
  | unterminated hq =>
    exact hfirst (Byte.not_isBlank_of_isQuote hq).1 (Byte.not_isBlank_of_isQuote hq).2
  | misfollowed => exact PrintItem.not_endsStatement _ _ _
  | missing hcomma => exact absurd hcomma hsep

namespace Cursor
variable {c : Cursor} {after : List UInt8}

theorem quoted?_of_rest {quote : UInt8} {chars : List UInt8} (hq : Byte.isQuote quote = true)
    (hc : quote ∉ chars) (h : c.rest = quote :: chars ++ [quote] ++ after) :
    c.quoted? = some (chars, c.past (quote :: chars ++ [quote])) := by
  have hstop : (chars ++ quote :: after).takeWhile (· != quote) = chars ∧
      (chars ++ quote :: after).dropWhile (· != quote) = quote :: after := by
    have hall : ∀ b ∈ chars, (b != quote) = true := fun b hb => bne_iff_ne.2 fun he => hc (he ▸ hb)
    rw [List.takeWhile_append_of_pos hall, List.dropWhile_append_of_pos hall]
    simp
  have hquoted : Lexeme.quoted? c.rest = some (chars, after) := by
    rw [h, List.append_assoc, List.cons_append, Lexeme.quoted?, if_pos hq,
      List.singleton_append, hstop.2]
    exact congrArg (fun literal => some (literal, after)) hstop.1
  rw [quoted?, hquoted]
  exact congrArg (fun c' => some (chars, c')) (moveTo_eq_past h)

theorem quoted?_of_unquoted (h : Byte.isQuote c.peek = false) : c.quoted? = none := by
  rw [quoted?, Option.map_eq_none_iff]
  cases hrest : c.rest with
  | nil => rfl
  | cons b rest =>
    rw [peek_of_rest hrest] at h
    rw [Lexeme.quoted?, if_neg (by rw [h]; exact Bool.false_ne_true)]

theorem quoted?_of_unterminated {quote : UInt8} {chars : List UInt8} (hc : quote ∉ chars)
    (h : c.rest = quote :: chars) :
    c.quoted? = none := by
  have hopen : chars.dropWhile (· != quote) = [] :=
    List.dropWhile_eq_nil_iff.2 fun b hb => bne_iff_ne.2 fun he => hc (he ▸ hb)
  rw [quoted?, Option.map_eq_none_iff, h, Lexeme.quoted?, hopen]
  split
  · rfl
  · rfl

theorem expression_of_phrase {p : Phrase .relation} {text : List UInt8} (h : c.rest = text ++ after)
    (hread : (Expr.readRelation (text ++ after)).parts = (p.expr false, p.left after)) :
    c.expression.1 = p.expr false ∧ c.expression.2.skipBlanks = (c.past text).skipBlanks := by
  rw [← h] at hread
  have hexpr : c.expression.1 = p.expr false := congrArg Prod.fst hread
  have hleft : (Expr.readRelation c.rest).rest = p.left after := congrArg Prod.snd hread
  refine ⟨hexpr, ?_⟩
  rw [expression, hleft, Phrase.left]
  split
  · rw [moveTo_eq_past h]
  · -- The blanks behind the phrase have been read with it.
    have hrest := rest_past h
    have hskip : (c.past text).skipBlanks = c.moveTo (Lexeme.skipBlanks after) := by
      obtain ⟨blanks, hblanks⟩ := Lexeme.skipBlanks_suffix after
      have hmoved : (c.past text).moveTo (Lexeme.skipBlanks after) = (c.past text).past blanks :=
        moveTo_eq_past (hrest.trans hblanks.symm)
      rw [skipBlanks, hrest, hmoved, ← past_append, moveTo_eq_past]
      rw [h, List.append_assoc, hblanks]
    rw [← hskip, skipBlanks_skipBlanks]

end Cursor

theorem Phrase.Spaced.exists_unquoted {p : Phrase .relation} {text : List UInt8}
    (h : p.Spaced false text) :
    ∃ b rest, text = b :: rest ∧ Byte.isQuote b = false := by
  obtain ⟨b, rest, rfl, hb⟩ := h.opens
  refine ⟨b, rest, rfl, Bool.eq_false_iff.2 fun hq => ?_⟩
  obtain rfl | rfl := Byte.eq_of_isQuote hq
  all_goals
    split at hb
    · revert hb
      decide
    · revert hb
      decide

namespace PrintItem
variable {s : Surroundings} {g g' : Generator}

theorem exists_value {p : Phrase .relation} {text shown : List UInt8} {hx : p.Spaced false text}
    (h : (value p text hx).render s g = .ok shown g') :
    ∃ x, p.reckon s false g = .ok x g' ∧ shown = Decimal.signed x.toInt := by
  rw [render] at h
  cases hr : p.reckon s false g with
  | error why g₁ =>
    rw [bind_of_error hr] at h
    cases h
  | ok x g₁ =>
    rw [bind_of_ok hr] at h
    cases h
    exact ⟨x, rfl, rfl⟩

theorem exists_fault {item : PrintItem} {why : Diagnostic} (h : item.render s g = .error why g') :
    ∃ p text hx, item = value p text hx ∧ p.reckon s false g = .error why g' := by
  cases item with
  | literal => cases h
  | value p text hx =>
    refine ⟨p, text, hx, rfl, ?_⟩
    rw [render] at h
    cases hr : p.reckon s false g with
    | error why g₁ =>
      rw [bind_of_error hr] at h
      cases h
      rfl
    | ok x g₁ =>
      rw [bind_of_ok hr] at h
      cases h

theorem renderAll_cons {item : PrintItem} {rest : List PrintItem} {shown : List UInt8}
    (h : renderAll s (item :: rest) g = .ok shown g') :
    ∃ first more g₁, item.render s g = .ok first g₁ ∧ renderAll s rest g₁ = .ok more g' ∧
    shown = first ++ more := by
  obtain ⟨first, g₁, hfirst, hrest⟩ := exists_of_bind_ok h
  obtain ⟨more, g₂, hmore, hpure⟩ := exists_of_bind_ok hrest
  cases hpure
  exact ⟨first, more, g₁, hfirst, hmore, rfl⟩

theorem renderAll_append {items : List PrintItem} {last : PrintItem} {shown : List UInt8}
    (h : renderAll s (items ++ [last]) g = .ok shown g') :
    ∃ front final g₁, renderAll s items g = .ok front g₁ ∧ last.render s g₁ = .ok final g' ∧
    shown = front ++ final := by
  induction items generalizing g shown with
  | nil =>
    obtain ⟨final, more, g₁, hfinal, hmore, rfl⟩ := renderAll_cons h
    cases hmore
    exact ⟨[], final, g, rfl, hfinal, List.append_nil _⟩
  | cons item items ih =>
    obtain ⟨first, more, g₁, hfirst, hmore, rfl⟩ := renderAll_cons h
    obtain ⟨front, final, g₂, hfront, hfinal, rfl⟩ := ih hmore
    refine ⟨first ++ front, final, g₂, ?_, hfinal, (List.append_assoc _ _ _).symm⟩
    rw [renderAll, bind_of_ok hfirst, bind_of_ok hfront]
    rfl

end PrintItem

theorem PrintList.terminator_eq (list : PrintList) : list.terminator =
    if list.front.any (·.separator.joins) || list.trailing.isSome then [] else [Byte.marker] := by
  have hiff : Separator.semicolon ∈ list.separators ↔
      (list.front.any (·.separator.joins) || list.trailing.isSome) = true := by
    rw [separators, List.mem_append, Bool.or_eq_true, List.any_eq_true, List.mem_map]
    refine or_congr (exists_congr fun entry => and_congr_right fun _ => ?_) ?_
    · cases entry.separator with
      | comma => decide
      | semicolon => decide
    · cases list.trailing with
      | none => simp
      | some blanks => simp
  rw [terminator]
  simp only [hiff]

end LineBasic
