import LineBasic.Proofs.PrintList
import LineBasic.Proofs.Session.History
import LineBasic.Proofs.Session.Printing

namespace LineBasic

namespace Session
variable {σ : Type} [Host σ] {s t : Session (Recorded σ)} {i : Interpreter} {k : Cursor}
  {g g' : Generator}
  {before after : Blanks} {item : PrintItem} {rest shown : List UInt8}

omit [Host σ] in
theorem skipBlanks_before (hi : i.ReadTo k g t.interpreter)
    (hrest : k.rest = before.val ++ (item.source ++ rest)) :
    t.interpreter.cursor.skipBlanks = k.past before.val := by
  obtain ⟨b, text, htext, hblank, -⟩ := item.exists_cons
  rw [hi.skipped]
  refine Cursor.skipBlanks_eq_past before hrest ?_
  rw [htext]
  exact List.dropWhile_cons_of_neg (by rw [hblank]; exact Bool.false_ne_true)

omit [Host σ] in
theorem cursor_before (hi : i.ReadTo k g t.interpreter) :
    (t.movedTo (k.past before.val).pos).interpreter.cursor = k.past before.val := by
  show Cursor.mk t.interpreter.memory.ram (k.past before.val).pos = _
  rw [hi.memory_eq, ← hi.text_eq]
  rfl

theorem printItem_eq {c : Cursor} (hc : t.interpreter.cursor.skipBlanks = c)
    (hnone : c.quoted? = none) (hquote : Byte.isQuote c.peek = false) :
    printItem t = (do
      let x ← expression
      print (Decimal.signed x.toInt) : Act (Recorded σ) Unit) (t.movedTo c.pos) := by
  unfold printItem
  rw [bind_of_ok (cursor_eq t)]
  dsimp only
  rw [hc, hnone]
  dsimp only
  rw [if_neg (by rw [hquote]; exact Bool.false_ne_true), bind_of_ok (goTo_eq c t)]

theorem printItem_shows (hi : i.ReadTo k g t.interpreter) (hm : i.memory.Layout)
    (hrest : k.rest = before.val ++ (item.source ++ rest)) (hends : item.EndsBefore rest)
    (hr : item.render i.memory.view g = .ok shown g') :
    Shows t shown (fun _ j => i.ReadTo (k.past (before.val ++ item.source)) g' j) (fun _ _ => False)
      (printItem t) := by
  have hskip := skipBlanks_before hi hrest
  have hleft : (k.past before.val).rest = item.source ++ rest := Cursor.rest_past hrest
  rw [Cursor.past_append]
  cases item with
  | literal quote chars hq hc =>
    cases hr
    unfold printItem
    refine .after (cursor_eq t) rfl ?_
    dsimp only
    rw [hskip, Cursor.quoted?_of_rest hq hc hleft]
    dsimp only
    refine (shows_print shown t).bind_ok fun _ u hu => ⟨(), _, goTo_eq _ u, ?_, rfl⟩
    have hread : i.ReadTo k g u.interpreter := hu ▸ hi
    have hmoved :=
      hread.moved (c := ((k.past before.val).past (quote :: shown ++ [quote])).skipBlanks) rfl
      (Cursor.skipBlanks_skipBlanks ((k.past before.val).past (quote :: shown ++ [quote]))) g
    rwa [← hread.generator_eq] at hmoved ⊢
  | value p text hx =>
    obtain ⟨x, hx', rfl⟩ := PrintItem.exists_value hr
    obtain ⟨b, first, rfl, hquote⟩ := hx.exists_unquoted
    have hpeek : Byte.isQuote (k.past before.val).peek = false := by
      rw [Cursor.peek_of_rest hleft]
      exact hquote
    rw [printItem_eq hskip (Cursor.quoted?_of_unquoted hpeek) hpeek]
    obtain ⟨hexpr, hafter⟩ := Cursor.expression_of_phrase hleft hends
    have hcursor : (t.movedTo (k.past before.val).pos).interpreter.cursor = k.past before.val :=
      cursor_before hi
    have hvalue := (p.means_expr i.memory.view false).evaluate g
    rw [hx', ← hexpr] at hvalue
    have hrun : (k.past before.val).expression.1.evaluate t.interpreter.memory.view
      t.interpreter.generator =
        (.ok x, g') := by
      rw [hi.memory_eq, hi.generator_eq]
      exact hvalue
    rw [← hcursor] at hrun
    refine .of_written (.after (expression_ok (hi.memory_eq.symm ▸ hm) hrun) rfl ?_) rfl
    refine (shows_print _ _).mono (fun _ u hu => ⟨?_, hu.2⟩) fun _ _ hu => hu
    rw [hu.1, hcursor]
    exact hi.moved (c := (k.past before.val).expression.2) rfl hafter g'

theorem printItem_fails {c : Cursor} (hm : t.interpreter.memory.Layout)
    (hc : t.interpreter.cursor.skipBlanks = c) (hnone : c.quoted? = none)
    (hquote : Byte.isQuote c.peek = false)
    (h : ∃ why, (c.expression.1.evaluate t.interpreter.memory.view t.interpreter.generator).1 =
      .error why) :
    Shows t [] (fun _ _ => False) (fun e _ => e.category = .malformed) (printItem t) := by
  obtain ⟨why, hwhy⟩ := h
  have hcursor : (t.movedTo c.pos).interpreter.cursor = c := by
    subst hc
    rfl
  have hrun : c.expression.1.evaluate t.interpreter.memory.view t.interpreter.generator =
      (.error why, (c.expression.1.evaluate t.interpreter.memory.view t.interpreter.generator).2) :=
        Prod.ext hwhy rfl
  rw [← hcursor] at hrun
  rw [printItem_eq hc hnone hquote]
  refine Ends.after_error (expression_error (s := t.movedTo c.pos) hm hrun)
    (Or.inl ⟨_, rfl, rfl, ?_⟩)
  exact (List.append_nil _).symm

theorem printItem_unterminated {quote : UInt8} {chars : List UInt8} (hq : Byte.isQuote quote = true)
    (hc : quote ∉ chars) (h : t.interpreter.cursor.skipBlanks.rest = quote :: chars) :
    Shows t [] (fun _ _ => False) (fun e _ => e.category = .malformed) (printItem t) := by
  unfold printItem
  refine .after (cursor_eq t) rfl ?_
  dsimp only
  rw [Cursor.quoted?_of_unterminated hc h]
  dsimp only
  rw [Cursor.peek_of_rest h, if_pos hq]
  exact Or.inl ⟨_, rfl, rfl, (List.append_nil _).symm⟩

section
variable {more : List UInt8} {ok : Phase → Interpreter → Prop} {fails : Error → Interpreter → Prop}
  {items : Nat} {joined : Bool}

omit [Host σ] in
theorem exists_behind (hrest : k.rest = before.val ++ (item.source ++ (after.val ++ rest)))
    (hblank : Lexeme.skipBlanks rest = rest) :
    ∃ c : Cursor, (k.past (before.val ++ item.source)).skipBlanks = c ∧ c.rest = rest ∧
      c = k.past (before.val ++ (item.source ++ after.val)) := by
  have hbehind : (k.past (before.val ++ item.source)).rest = after.val ++ rest := by
    rw [← List.append_assoc] at hrest
    exact Cursor.rest_past hrest
  refine ⟨_, Cursor.skipBlanks_eq_past after hbehind hblank, Cursor.rest_past hbehind, ?_⟩
  rw [← Cursor.past_append, List.append_assoc]

/-- An item with the separator behind it, and what the rest of the list shows. -/
theorem printItems_entry {entry : PrintEntry} (hi : i.ReadTo k g t.interpreter)
    (hm : i.memory.Layout) (hrest : k.rest = entry.source ++ rest)
    (hr : entry.item.render i.memory.view g = .ok shown g')
    (hopen : entry.separator = .semicolon → ¬ EndsStatement (Lexeme.skipBlanks rest))
    (hf : ∀ u : Session (Recorded σ), i.ReadTo (k.past entry.source) g' u.interpreter →
      Shows u more ok fails (printItems items (joined || entry.separator.joins) u)) :
    Shows t (shown ++ more) ok fails (printItems (items + 1) joined t) := by
  obtain ⟨before, item, after, separator⟩ := entry
  have hitem : k.rest = before.val ++ (item.source ++ (after.val ++ (separator.byte :: rest))) := by
    rw [hrest]
    simp only [PrintEntry.source, List.append_assoc, List.singleton_append]
  have hended : Expr.Ended (separator.byte :: rest) := by
    rintro b _ ⟨⟩
    cases separator <;> decide
  obtain ⟨c, hskip, hc, hpos⟩ :=
    exists_behind hitem (List.dropWhile_cons_of_neg (by cases separator <;> decide))
  have hadvance : c.advance.rest = rest := Cursor.rest_past (show c.rest = [_] ++ rest from hc)
  have hpast : k.past (PrintEntry.source ⟨before, item, after, separator⟩) = c.advance := by
    rw [hpos, PrintEntry.source, ← List.append_assoc, ← List.append_assoc, Cursor.past_append,
      List.append_assoc]
    rfl
  rw [hpast] at hf
  have htext : c.text = (k.past (before.val ++ item.source)).text := by
    rw [hpos]
    rfl
  rw [printItems]
  refine (printItem_shows hi hm hitem (item.endsBefore_of_ended after hended) hr).bind fun _ u hu =>
    ?_
  refine .after (cursor_eq u) rfl ?_
  dsimp only
  rw [hu.skipped, hskip, Cursor.peek_of_rest hc]
  -- A semicolon looks whether the list ends behind it, and a comma leaves that to the next item.
  cases separator with
  | comma =>
    simp only [Separator.joins, Bool.or_false] at hf
    rw [if_pos (show Separator.comma.byte = byte ',' from rfl)]
    exact .after (goTo_eq c.advance u) rfl (hf _ (hu.movedTo (c := c.advance) htext rfl))
  | semicolon =>
    simp only [Separator.joins, Bool.or_true] at hf
    have hgoes : ¬ c.advance.skipBlanks.atEndOfStatement = true := by
      rw [Cursor.atEndOfStatement_iff, Cursor.rest_skipBlanks, hadvance]
      exact hopen rfl
    rw [if_neg (by decide), if_pos (show Separator.semicolon.byte = byte ';' from rfl)]
    refine .after (goTo_eq c.advance.skipBlanks u) rfl ?_
    rw [if_neg hgoes]
    exact hf _ (hu.movedTo (c := c.advance.skipBlanks) htext (Cursor.skipBlanks_skipBlanks _))

/-- Items with the separators behind them, and what the rest of the list shows. -/
theorem printItems_entries {entries : List PrintEntry} (hi : i.ReadTo k g t.interpreter)
    (hm : i.memory.Layout) (hrest : k.rest = entries.flatMap (·.source) ++ rest)
    (hr : PrintItem.renderAll i.memory.view (entries.map (·.item)) g = .ok shown g')
    (hopen : entries.getLast?.map (·.separator) = some .semicolon →
      ¬ EndsStatement (Lexeme.skipBlanks rest))
    (hf : ∀ u : Session (Recorded σ), i.ReadTo (k.past (entries.flatMap (·.source))) g'
      u.interpreter → Shows u more ok fails (printItems items
      (joined || entries.any (·.separator.joins)) u)) :
    Shows t (shown ++ more) ok fails (printItems (entries.length + items) joined t) := by
  induction entries generalizing t k g shown joined with
  | nil =>
    cases hr
    simpa using hf t (by simpa [Cursor.past] using hi)
  | cons entry entries ih =>
    obtain ⟨first, later, g₁, hfirst, hlater, rfl⟩ := PrintItem.renderAll_cons hr
    rw [List.flatMap_cons, List.append_assoc] at hrest
    rw [List.length_cons, Nat.add_right_comm, List.append_assoc]
    refine printItems_entry hi hm hrest hfirst (fun hs => ?_) fun u hu => ?_
    · cases entries with
      | nil => exact hopen (congrArg some hs)
      | cons following entries =>
        simp only [List.flatMap_cons, PrintEntry.source, List.append_assoc]
        exact following.item.not_endsStatement _ _
    · refine ih hu (Cursor.rest_past hrest) hlater (fun hs => hopen ?_) fun u' hu' => ?_
      · cases entries with
        | nil => cases hs
        | cons following entries => rwa [List.getLast?_cons_cons]
      · rw [← Cursor.past_append, ← List.flatMap_cons] at hu'
        simpa only [List.any_cons, Bool.or_assoc] using hf u' hu'

/-- The last item of a list, and the end of the line unless there was a semicolon. -/
theorem printItems_last {tail : List UInt8} (hi : i.ReadTo k g t.interpreter) (hm : i.memory.Layout)
    (hrest : k.rest = before.val ++ (item.source ++ (after.val ++ tail)))
    (htail : EndsStatement tail) (hr : item.render i.memory.view g = .ok shown g') :
    Shows t (shown ++ if joined then [] else [Byte.marker])
      (fun phase j => phase = .proceed ∧ j = { i with
        textPos := k.pos + (before.val ++ (item.source ++ after.val)).length, generator := g' })
      (fun _ _ => False) (printItems (items + 1) joined t) := by
  obtain ⟨c, hskip, hc, hpos⟩ := exists_behind hrest htail.skipBlanks_eq
  have hend : c.atEndOfStatement = true := by
    rwa [Cursor.atEndOfStatement_iff, hc]
  have hseparator (sep : UInt8) (hs : sep ≠ byte ':') (hm : sep ≠ Byte.marker) :
      ¬ c.peek = sep := by
    rintro rfl
    rw [Cursor.atEndOfStatement, Bool.or_eq_true, decide_eq_true_eq, decide_eq_true_eq] at hend
    exact hend.elim hm hs
  rw [printItems]
  refine (printItem_shows hi hm hrest (item.endsBefore_of_ended after htail.ended) hr).bind
    fun _ u hu => ?_
  refine .after (cursor_eq u) rfl ?_
  dsimp only
  rw [hu.skipped, hskip, if_neg (hseparator _ (by decide) (by decide)),
    if_neg (hseparator _ (by decide) (by decide)),
    if_pos hend]
  refine .after (goTo_eq c u) rfl ?_
  have hread : (u.movedTo c.pos).interpreter = { i with
      textPos := k.pos + (before.val ++ (item.source ++ after.val)).length, generator := g' } := by
    obtain ⟨pos, hu'⟩ := hu.exists_eq
    rw [hpos]
    simp only [movedTo, hu']
    rfl
  cases joined with
  | true => exact ⟨⟨rfl, hread⟩, (List.append_nil _).symm⟩
  | false =>
    exact (shows_writeByte _ _).bind_ok fun _ v hv => ⟨_, v, rfl, ⟨rfl, hv.trans hread⟩, rfl⟩

theorem printItems_trailing {blanks : Blanks} {tail : List UInt8} (hi : i.ReadTo k g t.interpreter)
    (hm : i.memory.Layout)
    (hrest : k.rest = before.val ++ (item.source ++
      (after.val ++ (Separator.semicolon.byte :: (blanks.val ++ tail)))))
    (htail : EndsStatement tail) (hr : item.render i.memory.view g = .ok shown g') :
    Shows t shown
      (fun phase j => phase = .proceed ∧ j = { i with
        textPos :=
          k.pos +
            (before.val ++
              (item.source ++ (after.val ++ (Separator.semicolon.byte :: blanks.val)))).length,
        generator := g' })
      (fun _ _ => False) (printItems (items + 1) joined t) := by
  obtain ⟨c, hskip, hc, hpos⟩ := exists_behind hrest (List.dropWhile_cons_of_neg (by decide))
  have hadvance : c.advance.rest = blanks.val ++ tail :=
    Cursor.rest_past (show c.rest = [_] ++ (blanks.val ++ tail) from hc)
  have hblanks : c.advance.skipBlanks = c.advance.past blanks.val :=
    Cursor.skipBlanks_eq_past blanks hadvance htail.skipBlanks_eq
  have hend : (c.advance.past blanks.val).atEndOfStatement = true := by
    rwa [Cursor.atEndOfStatement_iff, Cursor.rest_past hadvance]
  have hended : Expr.Ended (Separator.semicolon.byte :: (blanks.val ++ tail)) := by
    rintro b _ ⟨⟩
    decide
  rw [printItems]
  refine (printItem_shows hi hm hrest (item.endsBefore_of_ended after hended) hr).bind_ok
    fun _ u hu => ?_
  rw [bind_of_ok (cursor_eq u)]
  dsimp only
  rw [hu.skipped, hskip, Cursor.peek_of_rest hc, if_neg (by decide), if_pos (by rfl), hblanks,
    bind_of_ok (goTo_eq _ u), if_pos hend]
  refine ⟨_, _, rfl, ⟨rfl, ?_⟩, rfl⟩
  obtain ⟨pos, hu'⟩ := hu.exists_eq
  rw [hpos]
  simp only [movedTo, hu', Cursor.past, Cursor.advance, List.length_append, List.length_cons]
  congr 1
  omega

/-- Where an item is expected and no string begins, it is the expression that fails. -/
theorem printItem_expression_fails {text : List UInt8} (hi : i.ReadTo k g t.interpreter)
    (hm : i.memory.Layout) (hrest : k.rest = before.val ++ text)
    (hskip : Lexeme.skipBlanks text = text) (hquote : text.head?.any Byte.isQuote = false)
    (hfails : ∃ why, ((k.past before.val).expression.1.evaluate i.memory.view g).1 = .error why) :
    Shows t [] (fun _ _ => False) (fun e _ => e.category = .malformed) (printItem t) := by
  have hc : t.interpreter.cursor.skipBlanks = k.past before.val := by
    rw [hi.skipped]
    exact Cursor.skipBlanks_eq_past before hrest hskip
  have hpeek : Byte.isQuote (k.past before.val).peek = false := by
    rw [Cursor.peek_eq_head?, Cursor.rest_past hrest]
    cases text with
    | nil => rfl
    | cons b rest => exact hquote
  refine printItem_fails (hi.memory_eq.symm ▸ hm) hc (Cursor.quoted?_of_unquoted hpeek) hpeek ?_
  rwa [hi.memory_eq, hi.generator_eq]

theorem printItems_flaw {text : List UInt8} {sep : Option Separator}
    (hi : i.ReadTo k g t.interpreter) (hm : i.memory.Layout) (hrest : k.rest = before.val ++ text)
    (h : PrintFlaw i.memory.view g sep text more) :
    Shows t more (fun _ _ => False) (fun e _ => e.category = .malformed)
      (printItems (items + 1) joined t) := by
  have hmalformed (h : ¬ (Expr.readRelation text).parts.1.Clean) :
      ∃ why, ((k.past before.val).expression.1.evaluate i.memory.view g).1 = .error why := by
    refine Expr.evaluate_of_not_clean ?_ _ _
    rw [Cursor.expression, Cursor.rest_past hrest]
    exact h
  rw [printItems]
  -- By the flaw. The first three stop the item itself, the next one is found behind it, and the
  -- last where an item is due.
  cases h with
  | @fault item after why g' hends hr =>
    obtain ⟨p, text, hx, rfl, hfault⟩ := PrintItem.exists_fault hr
    refine (printItem_expression_fails hi hm hrest (hx.skipBlanks_append after) ?_ ?_).bind_fails
    · obtain ⟨b, rest, rfl, hquote⟩ := hx.exists_unquoted
      exact hquote
    · obtain ⟨hexpr, -⟩ := Cursor.expression_of_phrase (Cursor.rest_past hrest) hends
      have hvalue := (p.means_expr i.memory.view false).evaluate g
      rw [hfault, ← hexpr] at hvalue
      exact ⟨why, hvalue⟩
  | @malformed b rest hblank hquote hcolon hclean =>
    have hskip : Lexeme.skipBlanks (b :: rest) = b :: rest :=
      List.dropWhile_cons_of_neg (by rw [hblank]; exact Bool.false_ne_true)
    exact (printItem_expression_fails hi hm hrest hskip hquote (hmalformed hclean)).bind_fails
  | @unterminated quote chars hq hc =>
    refine (printItem_unterminated hq hc ?_).bind_fails
    have hblank : ¬ Byte.isBlank quote = true := by
      rw [(Byte.not_isBlank_of_isQuote hq).1]
      exact Bool.false_ne_true
    rw [hi.skipped, Cursor.skipBlanks_eq_past before hrest (List.dropWhile_cons_of_neg hblank)]
    exact Cursor.rest_past hrest
  | @misfollowed item after b rest shown g' hends hr hblank hb =>
    obtain ⟨c, hskip, hc, -⟩ :=
      exists_behind hrest (List.dropWhile_cons_of_neg (by rw [hblank]; exact Bool.false_ne_true))
    simp only [List.mem_cons, List.not_mem_nil, or_false, not_or] at hb
    have hend : ¬ c.atEndOfStatement = true := by
      rw [Cursor.atEndOfStatement_iff, hc]
      rintro (hnil | hcolon)
      · cases hnil
      · exact hb.2.2 (Option.some.inj hcolon)
    rw [← List.append_nil more]
    refine (printItem_shows hi hm hrest hends hr).bind fun _ u hu => ?_
    refine .after (cursor_eq u) rfl ?_
    dsimp only
    rw [hu.skipped, hskip, Cursor.peek_of_rest hc, if_neg hb.1, if_neg hb.2.1, if_neg hend]
    exact Or.inl ⟨_, rfl, rfl, (List.append_nil _).symm⟩
  | missing hcomma hends =>
    refine (printItem_expression_fails hi hm hrest hends.skipBlanks_eq ?_
      (hmalformed hends.not_clean)).bind_fails
    obtain rfl | hhead := hends
    · rfl
    · rw [hhead]
      rfl

end

end Session

namespace Session
variable {σ : Type} [Host σ] {s : Session (Recorded σ)} {shown more : List UInt8} {g : Generator}

/-- The cursor behind the word that a statement begins with. -/
def behindWord (s : Session σ) : Cursor :=
  (s.interpreter.cursor.token Keyword.vocabulary).2

theorem exists_printItems
    (hk : s.interpreter.keyword = some .print ∨ s.interpreter.keyword = some .printSign)
    (hopen : ¬ EndsStatement (Lexeme.skipBlanks s.behindWord.rest)) :
    ∃ t : Session (Recorded σ), s.interpreter.ReadTo s.behindWord s.interpreter.generator
      t.interpreter ∧
      t.host = s.host ∧ statement s = printItems (s.behindWord.rest.length + 1) false t := by
  rcases hc : s.interpreter.cursor.token Keyword.vocabulary with ⟨word, c⟩
  have hbehind : s.behindWord = c := congrArg Prod.snd hc
  have hword : s.interpreter.keyword = word := congrArg Prod.fst hc
  have hblanks : c.skipBlanks = c := hbehind ▸ s.interpreter.cursor.skipBlanks_token
    Keyword.vocabulary
  have hcursor : (s.movedTo c.pos).interpreter.cursor = c := cursor_movedTo (token_within_of_eq hc)
  rw [hbehind] at hopen ⊢
  rw [hword] at hk
  rw [← Cursor.rest_skipBlanks, hblanks, ← Cursor.atEndOfStatement_iff, Cursor.atEndOfStatement,
    Bool.or_eq_true,
    decide_eq_true_eq, decide_eq_true_eq, not_or] at hopen
  refine ⟨(s.movedTo c.pos).noted (.statement word c.pos),
    ⟨⟨c.pos, rfl⟩, congrArg Cursor.skipBlanks hcursor⟩, rfl, ?_⟩
  have hlist : printList ((s.movedTo c.pos).noted (.statement word c.pos)) =
      printItems (c.rest.length + 1) false ((s.movedTo c.pos).noted (.statement word c.pos)) := by
    unfold printList
    rw [bind_of_ok (cursor_eq _), show ((s.movedTo c.pos).noted _).interpreter.cursor =
      c from hcursor, hblanks, if_neg hopen.2, if_neg]
    rw [Cursor.atEndOfLine, decide_eq_true_eq]
    exact hopen.1
  unfold statement
  rw [bind_of_ok (cursor_eq s), hc]
  dsimp only
  rw [bind_of_ok (goTo_eq c s), bind_of_ok (show note _ (s.movedTo c.pos) = .ok () _ from rfl)]
  rcases hk with rfl | rfl
  · exact hlist
  · exact hlist

/-- What the entries of a list show, and what the rest of it shows. -/
theorem shows_of_entries (hm : s.interpreter.memory.Layout)
    (hk : s.interpreter.keyword = some .print ∨ s.interpreter.keyword = some .printSign)
    {entries : List PrintEntry} {rest : List UInt8} {ok : Phase → Interpreter → Prop}
    {fails : Error → Interpreter → Prop}
    (hrest : s.behindWord.rest = entries.flatMap (·.source) ++ rest)
    (hr : PrintItem.renderAll s.interpreter.memory.view (entries.map (·.item))
      s.interpreter.generator = .ok shown g)
    (hopen : entries = [] ∨ entries.getLast?.map (·.separator) = some .semicolon →
      ¬ EndsStatement (Lexeme.skipBlanks rest))
    (hf : ∀ (u : Session (Recorded σ)) items, s.interpreter.ReadTo
      (s.behindWord.past (entries.flatMap (·.source))) g u.interpreter →
      Shows u more ok fails (printItems (items + 1) (entries.any (·.separator.joins)) u)) :
    Shows s (shown ++ more) ok fails (statement s) := by
  obtain ⟨t, hread, hhost, hrun⟩ := exists_printItems hk (s := s) (by
    rw [hrest]
    exact PrintEntry.not_endsStatement fun hnil => hopen (Or.inl hnil))
  have hlength := PrintEntry.length_le entries
  obtain ⟨items, hitems⟩ : ∃ items, s.behindWord.rest.length + 1 = entries.length +
      (items + 1) := by
    refine ⟨s.behindWord.rest.length - entries.length, ?_⟩
    rw [hrest, List.length_append]
    omega
  rw [hrun, hitems]
  refine .of_written (printItems_entries hread hm hrest hr (fun hs => hopen (Or.inr hs))
    fun u hu => ?_) (by rw [hhost])
  rw [Bool.false_or]
  exact hf u items hu

/-- A list that ends its statement is shown, and execution goes on where the statement ends. -/
theorem statement_shows_list (hm : s.interpreter.memory.Layout)
    (hk : s.interpreter.keyword = some .print ∨ s.interpreter.keyword = some .printSign)
    {list : PrintList} {tail : List UInt8} (hrest : s.behindWord.rest = list.source ++ tail)
    (htail : EndsStatement tail)
    (hr : PrintItem.renderAll s.interpreter.memory.view list.items s.interpreter.generator =
      .ok shown g) :
    Shows s (shown ++ list.terminator)
      (fun phase i => phase = .proceed ∧ i = { s.interpreter with
        textPos := s.behindWord.pos + list.source.length, generator := g })
      (fun _ _ => False) (statement s) := by
  obtain ⟨entries, before, last, after, trailing⟩ := list
  obtain ⟨front, final, g₁, hfront, hfinal, rfl⟩ := PrintItem.renderAll_append hr
  have hsource : s.behindWord.rest = entries.flatMap (·.source) ++
    (before.val ++ (last.source ++ (after.val ++
      (trailing.elim [] (Separator.semicolon.byte :: ·.val) ++ tail)))) := by
    rw [hrest]
    simp only [PrintList.source, List.append_assoc]
  have hlast := last.not_endsStatement before (after.val ++
    (trailing.elim [] (Separator.semicolon.byte :: ·.val) ++ tail))
  rw [List.append_assoc]
  refine shows_of_entries hm hk hsource hfront (fun _ => hlast) fun u items hu => ?_
  have hleft := Cursor.rest_past hsource
  have hpos : s.behindWord.pos + (PrintList.source
    ⟨entries, before, last, after, trailing⟩).length =
      (s.behindWord.past (entries.flatMap (·.source))).pos +
        (before.val ++ (last.source ++ (after.val ++
        trailing.elim [] (Separator.semicolon.byte :: ·.val)))).length := by
    rw [PrintList.source, List.length_append, ← Nat.add_assoc]
    rfl
  rw [hpos, PrintList.terminator_eq]
  cases trailing with
  | none =>
    rw [Option.elim_none, List.nil_append] at hleft
    rw [Option.elim_none, List.append_nil, Option.isSome_none, Bool.or_false]
    exact printItems_last hu hm hleft htail hfinal
  | some blanks =>
    rw [Option.isSome_some, Bool.or_true, if_pos rfl, List.append_nil]
    exact printItems_trailing hu hm hleft htail hfinal

/-- A list that breaks off shows the items before that, and the statement fails. -/
theorem statement_shows_flaw (hm : s.interpreter.memory.Layout)
    (hk : s.interpreter.keyword = some .print ∨ s.interpreter.keyword = some .printSign)
    {entries : List PrintEntry} {before : Blanks} {text : List UInt8}
    (hrest : s.behindWord.rest = entries.flatMap (·.source) ++ (before.val ++ text))
    (hr : PrintItem.renderAll s.interpreter.memory.view (entries.map (·.item))
      s.interpreter.generator = .ok shown g)
    (h : PrintFlaw s.interpreter.memory.view g (entries.getLast?.map (·.separator)) text more) :
    Shows s (shown ++ more) (fun _ _ => False) (fun e _ => e.category = .malformed)
    (statement s) := by
  refine shows_of_entries hm hk hrest hr (fun hopen => h.not_endsStatement ?_ before)
    fun u items hu => ?_
  · rintro hcomma
    obtain rfl | hsemicolon := hopen
    · cases hcomma
    · rw [hsemicolon] at hcomma
      cases hcomma
  · exact printItems_flaw hu hm (Cursor.rest_past hrest) h

end Session

/-- A print list of a running program or a direct line. One that ends its statement shows its items
one after the other and the end of the line unless it has a semicolon, and execution goes on where
the statement ends. One that breaks off shows the items that were completed, and the statement
fails. -/
theorem History.print_list {σ : Type} [Host σ] {settings : Settings} {first : Recorded σ}
    {threshold : Option Severity} {past : List (Moment (Recorded σ))} {call : Call}
    {s : Session (Recorded σ)}
    (h : History (Session.start settings first threshold) past (.busy call .execute s))
    (hk : s.interpreter.keyword = some .print ∨ s.interpreter.keyword = some .printSign) :
    (∀ (list : PrintList) (tail shown : List UInt8) (g : Generator),
      s.behindWord.rest = list.source ++ tail → EndsStatement tail →
      PrintItem.renderAll s.interpreter.memory.view list.items s.interpreter.generator =
        .ok shown g →
      Session.Shows s (shown ++ list.terminator)
        (fun phase i => phase = .proceed ∧ i = { s.interpreter with
          textPos := s.behindWord.pos + list.source.length, generator := g })
        (fun _ _ => False) (Session.statement s)) ∧
    ∀ (entries : List PrintEntry) (before : Blanks) (text shown more : List UInt8) (g : Generator),
      s.behindWord.rest = entries.flatMap (·.source) ++ (before.val ++ text) →
      PrintItem.renderAll s.interpreter.memory.view (entries.map (·.item)) s.interpreter.generator =
        .ok shown g →
      PrintFlaw s.interpreter.memory.view g (entries.getLast?.map (·.separator)) text more →
      Session.Shows s (shown ++ more) (fun _ _ => False) (fun e _ => e.category = .malformed)
        (Session.statement s) := by
  obtain ⟨l, frames, hready⟩ := h.exists_ready
  have hs : s.interpreter.Running l frames := hready
  have hm := hs.layout
  exact ⟨fun list tail shown g hrest htail hr => Session.statement_shows_list hm hk hrest htail hr,
    fun entries before text shown more g hrest hr hflaw =>
      Session.statement_shows_flaw hm hk hrest hr hflaw⟩

set_option linter.constructorNameAsVariable false in
/-- A semicolon, a comma, blanks and a colon, and a list that breaks off at a division by zero. -/
theorem History.print_list_of_lines :
    ∃ (past past' : List (Moment (Recorded Script))) (s s' : Session (Recorded Script)),
    History (Session.start { ramSize := 256 } (Recorded.mk ({} : Script) []) none) past
      (.busy .enter .execute s) ∧
    s.behindWord.rest = ascii "\"A\" ; 1+2 ,-3 :END" ∧
    Session.Shows s (ascii "A3-3")
      (fun phase i => phase = .proceed ∧ i = { s.interpreter with textPos :=
        s.behindWord.pos + 14 })
      (fun _ _ => False) (Session.statement s) ∧
    History (Session.start { ramSize := 256 } (Recorded.mk ({} : Script) []) none) past'
      (.busy .enter .execute s') ∧
    s'.behindWord.rest = ascii "\"A\" , 1/0;2" ∧
    Session.Shows s' (ascii "A") (fun _ _ => False) (fun e _ => e.category = .malformed)
      (Session.statement s') := by
  have hrun : Ends (Session.enter 2 (ascii "? \"A\" ; 1+2 ,-3 :END")
        (Session.start { ramSize := 256 } (Recorded.mk ({} : Script) []) none))
      (fun phase s => phase = .execute ∧ s.interpreter.keyword = some .printSign ∧
        s.behindWord.rest = ascii "\"A\" ; 1+2 ,-3 :END")
      fun _ _ => False := by
    decide +kernel
  have hrun' : Ends (Session.enter 2 (ascii "? \"A\" , 1/0;2")
        (Session.start { ramSize := 256 } (Recorded.mk ({} : Script) []) none))
      (fun phase s => phase = .execute ∧ s.interpreter.keyword = some .printSign ∧
        s.behindWord.rest = ascii "\"A\" , 1/0;2")
      fun _ _ => False := by
    decide +kernel
  obtain ⟨_, s, hs, rfl, hk, hrest⟩ := hrun.exists_ok
  obtain ⟨_, s', hs', rfl, hk', hrest'⟩ := hrun'.exists_ok
  obtain ⟨past, hexecute⟩ := History.start.enter_of_ok hs
  obtain ⟨past', hexecute'⟩ := History.start.enter_of_ok hs'
  let tight : Blanks := ⟨[], by decide⟩
  let wide : Blanks := ⟨[Byte.blank], by decide⟩
  let word : PrintItem := .literal (byte '"') (ascii "A") (by decide) (by decide)
  obtain ⟨list, hsource, hterminator, hshown⟩ : ∃ list : PrintList, list.source =
    ascii "\"A\" ; 1+2 ,-3 " ∧
      list.terminator = [] ∧ ∀ view g, PrintItem.renderAll view list.items g = .ok
        (ascii "A3-3") g := by
    let sum : Phrase .relation := .plain (.joined (.unsigned (.single (.number 1))) .plus
      (.single (.number 2)))
    let opposite : Phrase .relation := .plain (.unsigned (.single (.negate (.number 3))))
    refine ⟨⟨[⟨tight, word, wide, .semicolon⟩, ⟨wide, .value sum sum.spell
      (sum.spaced_spell false), wide, .comma⟩],
      tight, .value opposite opposite.spell (opposite.spaced_spell false), wide,
        none⟩, by decide +kernel, rfl,
      fun view g => ?_⟩
    exact congrArg (EStateM.Result.ok · g)
      (show ascii "A" ++ (Decimal.signed 3 ++ (Decimal.signed (-3) ++ [])) =
        ascii "A3-3" by decide +kernel)
  have hlength : list.source.length = 14 := by
    rw [hsource]
    rfl
  have hlist := (print_list hexecute (Or.inr hk)).1 list (ascii ":END") _ _
    (by rw [hrest, hsource]; rfl) (Or.inr rfl)
    (hshown _ _)
  rw [hterminator, List.append_nil, hlength] at hlist
  let entry : PrintEntry := ⟨tight, word, wide, .comma⟩
  let quotient : Phrase .relation :=
    .plain (.unsigned (.factor (.single (.number 1)) .slash (.number 0)))
  have hrest₀ : s'.behindWord.rest = [entry].flatMap (·.source) ++
      (wide.val ++ (quotient.spell ++ ascii ";2")) := by
    rw [hrest']
    decide +kernel
  have hended : Expr.Ended (ascii ";2") := by
    rintro b _ ⟨⟩
    decide
  have hfault (view : Surroundings) (g : Generator) :
      (PrintItem.value quotient quotient.spell (quotient.spaced_spell false)).render view g =
        .error .divisionByZero g := rfl
  have hflaw := (print_list hexecute' (Or.inr hk')).2 [entry] wide _ (ascii "A")
    [] s'.interpreter.generator hrest₀ rfl
    (.fault (PrintItem.endsBefore_of_ended _ tight hended) (hfault _ _))
  exact ⟨past, past', s, s', hexecute, hrest, hlist, hexecute', hrest', hflaw⟩

end LineBasic
