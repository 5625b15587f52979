import LineBasic.Expr.Reading
import LineBasic.Proofs.Text

namespace LineBasic

section
variable {text : Array UInt8}

theorem endOfLineWithin_spec (text : Array UInt8) (bytes i : Nat) :
    i ≤ endOfLineWithin text bytes i ∧ endOfLineWithin text bytes i ≤ i + bytes ∧
      (∀ k, i ≤ k → k < endOfLineWithin text bytes i → text.getD k Byte.marker ≠ Byte.marker) ∧
      (endOfLineWithin text bytes i < i + bytes →
        text.getD (endOfLineWithin text bytes i) Byte.marker = Byte.marker) := by
  -- On the bytes that may still be looked at; each look either stands at a marker or moves one byte
  -- on.
  induction bytes generalizing i with
  | zero =>
    refine ⟨Nat.le_refl _, Nat.le_refl _, fun k hi hk => ?_, fun h => absurd h (Nat.lt_irrefl _)⟩
    exact absurd hk (Nat.not_lt.2 hi)
  | succ bytes ih =>
    rw [endOfLineWithin]
    split
    · rename_i hm
      refine ⟨Nat.le_refl _, by omega, fun k hi hk => absurd hk (Nat.not_lt.2 hi), fun _ => hm⟩
    · rename_i hm
      obtain ⟨hge, hle, hne, hend⟩ := ih (i + 1)
      refine ⟨by omega, by omega, fun k hi hk => ?_, fun h => hend (by omega)⟩
      by_cases he : k = i
      · rw [he]
        exact hm
      · exact hne k (by omega) hk

theorem le_endOfLine (text : Array UInt8) (i : Nat) : i ≤ endOfLine text i :=
  (endOfLineWithin_spec text _ i).1

theorem endOfLine_le_size {i : Nat} (h : i ≤ text.size) : endOfLine text i ≤ text.size := by
  have := (endOfLineWithin_spec text (text.size - i) i).2.1
  rw [endOfLine]
  omega

theorem getD_ne_marker {i k : Nat} (hi : i ≤ k) (hk : k < endOfLine text i) :
    text.getD k Byte.marker ≠ Byte.marker :=
  (endOfLineWithin_spec text _ i).2.2.1 k hi hk

theorem getElem?_eq_of_getD {text' : Array UInt8} {i : Nat}
    (h : text'.getD i Byte.marker = text.getD i Byte.marker)
    (hne : text.getD i Byte.marker ≠ Byte.marker) : text'[i]? = text[i]? := by
  rw [Array.getD_eq_getD_getElem?, Array.getD_eq_getD_getElem?] at h
  rw [Array.getD_eq_getD_getElem?] at hne
  cases hbyte : text[i]? with
  | none => exact absurd (by rw [hbyte]; rfl) hne
  | some b =>
    rw [hbyte] at h hne
    cases hbyte' : text'[i]? with
    | none =>
      rw [hbyte'] at h
      exact absurd h.symm hne
    | some b' =>
      rw [hbyte'] at h
      exact congrArg some h

theorem getD_endOfLine (text : Array UInt8) (i : Nat) :
    text.getD (endOfLine text i) Byte.marker = Byte.marker := by
  by_cases h : endOfLine text i < i + (text.size - i)
  · exact (endOfLineWithin_spec text _ i).2.2.2 h
  · rw [Array.getD_eq_getD_getElem?, Array.getElem?_eq_none (by omega)]
    rfl

theorem endOfLine_eq {i e : Nat} (hi : i ≤ e)
    (hne : ∀ k, i ≤ k → k < e → text.getD k Byte.marker ≠ Byte.marker)
    (he : text.getD e Byte.marker = Byte.marker) : endOfLine text i = e := by
  have hge := le_endOfLine text i
  by_cases hlt : endOfLine text i < e
  · exact absurd (getD_endOfLine text i) (hne _ hge hlt)
  · by_cases hgt : e < endOfLine text i
    · exact absurd he (getD_ne_marker hi hgt)
    · omega

theorem endOfLine_le {i e : Nat} (hi : i ≤ e) (he : text.getD e Byte.marker = Byte.marker) :
    endOfLine text i ≤ e := by
  by_cases hlt : e < endOfLine text i
  · exact absurd he (getD_ne_marker hi hlt)
  · omega

theorem endOfLine_eq_of_le {i k : Nat} (hi : i ≤ k) (hk : k ≤ endOfLine text i) :
    endOfLine text k = endOfLine text i :=
  endOfLine_eq hk (fun _ hj hlt => getD_ne_marker (Nat.le_trans hi hj) hlt) (getD_endOfLine text i)

end

namespace Cursor

theorem length_rest (c : Cursor) : c.rest.length = endOfLine c.text c.pos - c.pos := by
  rw [rest, Array.length_toList, Array.size_extract]
  by_cases h : c.pos ≤ c.text.size
  · rw [Nat.min_eq_left (endOfLine_le_size h)]
  · have : endOfLine c.text c.pos = c.pos := by
      rw [endOfLine, show c.text.size - c.pos = 0 by omega]
      rfl
    omega

theorem getElem?_rest (c : Cursor) (i : Nat) :
    c.rest[i]? = if i < c.rest.length then c.text[c.pos + i]? else none := by
  by_cases h : i < c.rest.length
  · rw [if_pos h]
    rw [rest, Array.length_toList, Array.size_extract] at h
    rw [rest, Array.getElem?_toList, Array.getElem?_extract, if_pos h]
  · rw [if_neg h, List.getElem?_eq_none (Nat.not_lt.1 h)]

theorem rest_eq_nil_iff (c : Cursor) : c.rest = [] ↔ c.peek = Byte.marker := by
  have hle := le_endOfLine c.text c.pos
  rw [← List.length_eq_zero_iff, length_rest, peek, peekAt, Nat.add_zero]
  constructor
  · intro h
    have he : endOfLine c.text c.pos = c.pos := by omega
    have := getD_endOfLine c.text c.pos
    rwa [he] at this
  · intro h
    have := endOfLine_le (Nat.le_refl c.pos) h
    omega

/-- The byte at the cursor is the first of those that are left. -/
theorem peek_eq_head? (c : Cursor) : c.peek = c.rest.head?.getD Byte.marker := by
  cases hr : c.rest with
  | nil => exact c.rest_eq_nil_iff.1 hr
  | cons b rest =>
    have hget := c.getElem?_rest 0
    rw [hr, if_pos (List.length_pos_iff.2 (List.cons_ne_nil _ _))] at hget
    simp only [List.getElem?_cons_zero] at hget
    rw [peek, peekAt, Array.getD_eq_getD_getElem?, ← hget]
    rfl

theorem pos_add_length_rest (c : Cursor) : c.pos + c.rest.length = endOfLine c.text c.pos := by
  have := le_endOfLine c.text c.pos
  rw [length_rest]
  omega

theorem marker_notMem_rest (c : Cursor) : Byte.marker ∉ c.rest := by
  intro hm
  obtain ⟨i, hi, he⟩ := List.mem_iff_getElem.1 hm
  have hget := c.getElem?_rest i
  rw [if_pos hi, List.getElem?_eq_getElem hi, he] at hget
  have hend := c.pos_add_length_rest
  refine getD_ne_marker (Nat.le_add_right c.pos i)
    (show c.pos + i < endOfLine c.text c.pos by omega) ?_
  rw [Array.getD_eq_getD_getElem?, ← hget]
  rfl

theorem rest_add (c : Cursor) {k : Nat} (hk : k ≤ c.rest.length) :
    Cursor.rest ⟨c.text, c.pos + k⟩ = c.rest.drop k := by
  have hend := c.pos_add_length_rest
  have hsame : endOfLine c.text (c.pos + k) = endOfLine c.text c.pos :=
    endOfLine_eq_of_le (Nat.le_add_right _ _) (by omega)
  have hlen : (Cursor.rest ⟨c.text, c.pos + k⟩).length = c.rest.length - k := by
    rw [length_rest]
    show endOfLine c.text (c.pos + k) - (c.pos + k) = _
    omega
  apply List.ext_getElem? fun i => ?_
  rw [getElem?_rest, List.getElem?_drop, getElem?_rest, hlen]
  by_cases hi : i < c.rest.length - k
  · rw [if_pos hi, if_pos (by omega), Nat.add_assoc]
  · rw [if_neg hi, if_neg (by omega)]

theorem rest_moveTo (c : Cursor) {after : List UInt8} (h : after <:+ c.rest) :
    (c.moveTo after).rest = after := by
  rw [moveTo]
  exact (c.rest_add (Nat.sub_le _ _)).trans (List.suffix_iff_eq_drop.1 h).symm

theorem moveTo_rest (c : Cursor) : c.moveTo c.rest = c := by
  rw [moveTo, Nat.sub_self]
  rfl

theorem rest_skipBlanks (c : Cursor) : c.skipBlanks.rest = Lexeme.skipBlanks c.rest :=
  c.rest_moveTo (Lexeme.skipBlanks_suffix c.rest)

theorem skipBlanks_eq_self {c : Cursor} (h : Lexeme.skipBlanks c.rest = c.rest) :
    c.skipBlanks = c := by
  rw [skipBlanks, h, moveTo_rest]

theorem skipBlanks_skipBlanks (c : Cursor) : c.skipBlanks.skipBlanks = c.skipBlanks := by
  apply skipBlanks_eq_self
  rw [rest_skipBlanks]
  exact Lexeme.skipBlanks_skipBlanks _

/-- The cursor behind some text. -/
def past (c : Cursor) (text : List UInt8) : Cursor :=
  { c with pos := c.pos + text.length }

theorem past_append (c : Cursor) (text more : List UInt8) :
    c.past (text ++ more) = (c.past text).past more := by
  simp only [past, List.length_append, Nat.add_assoc]

section
variable {c : Cursor} {text after : List UInt8}

theorem rest_past (h : c.rest = text ++ after) : (c.past text).rest = after := by
  have hadd := c.rest_add (k := text.length) (by rw [h, List.length_append]; omega)
  rw [h, List.drop_left] at hadd
  exact hadd

theorem moveTo_eq_past (h : c.rest = text ++ after) : c.moveTo after = c.past text := by
  rw [moveTo, past, h, List.length_append, Nat.add_sub_cancel]

end

structure Within (c c' : Cursor) : Prop where
  text_eq : c'.text = c.text
  le : c.pos ≤ c'.pos
  le_end : c'.pos ≤ endOfLine c.text c.pos

theorem Within.refl (c : Cursor) : c.Within c :=
  ⟨rfl, Nat.le_refl _, le_endOfLine _ _⟩

theorem Within.trans {c c' c'' : Cursor} (h : c.Within c') (h' : c'.Within c'') : c.Within c'' := by
  refine ⟨h'.text_eq.trans h.text_eq, Nat.le_trans h.le h'.le, ?_⟩
  have := h'.le_end
  rwa [h.text_eq, endOfLine_eq_of_le h.le h.le_end] at this

theorem Within.pos_add_length_rest {c c' : Cursor} (h : c.Within c') :
    c'.pos + c'.rest.length = c.pos + c.rest.length := by
  rw [c'.pos_add_length_rest, c.pos_add_length_rest, h.text_eq]
  exact endOfLine_eq_of_le h.le h.le_end

theorem moveTo_within (c : Cursor) (after : List UInt8) : c.Within (c.moveTo after) := by
  have := le_endOfLine c.text c.pos
  have := c.length_rest
  refine ⟨rfl, Nat.le_add_right _ _, ?_⟩
  show c.pos + (c.rest.length - after.length) ≤ _
  omega

theorem advance_within {c : Cursor} (h : c.peek ≠ Byte.marker) : c.Within c.advance := by
  refine ⟨rfl, Nat.le_add_right _ _, ?_⟩
  have := le_endOfLine c.text c.pos
  have hne : endOfLine c.text c.pos ≠ c.pos := by
    intro he
    have hend := getD_endOfLine c.text c.pos
    rw [he] at hend
    exact h hend
  show c.pos + 1 ≤ _
  omega

theorem skipBlanks_within (c : Cursor) : c.Within c.skipBlanks :=
  c.moveTo_within _

theorem token_within {τ : Type} (c : Cursor) (vocabulary : Vocabulary τ) :
    c.Within (c.token vocabulary).2 :=
  c.moveTo_within _

theorem lineNumber_within (c : Cursor) : c.Within c.lineNumber.2 :=
  c.moveTo_within _

theorem expression_within (c : Cursor) : c.Within c.expression.2 :=
  c.moveTo_within _

theorem quoted?_within {c c' : Cursor} {literal : List UInt8} (h : c.quoted? = some (literal, c')) :
    c.Within c' := by
  obtain ⟨⟨found, after⟩, -, he⟩ := Option.map_eq_some_iff.1 h
  cases he
  exact c.moveTo_within after

theorem peek_ne_marker_of_letter? {c : Cursor} {v : Variable} (h : c.letter? = some v) :
    c.peek ≠ Byte.marker := by
  intro hm
  rw [letter?, c.rest_eq_nil_iff.2 hm] at h
  cases h

theorem expect_within (c : Cursor) {b : UInt8} (hb : b ≠ Byte.marker) :
    c.Within (c.expect b).2 := by
  unfold expect
  dsimp only
  split
  · rename_i hp
    have hne : c.skipBlanks.peek ≠ Byte.marker := fun hm => hb (hp.symm.trans hm)
    exact c.skipBlanks_within.trans ((advance_within hne).trans (skipBlanks_within _))
  · exact c.skipBlanks_within

/-- The two cursors stand at the same position, and the same bytes are left of their lines. -/
structure Like (c c' : Cursor) : Prop where
  pos_eq : c'.pos = c.pos
  rest_eq : c'.rest = c.rest

namespace Like
variable {c c' : Cursor}

theorem refl (c : Cursor) : c.Like c :=
  ⟨rfl, rfl⟩

theorem peek_eq (h : c.Like c') : c'.peek = c.peek := by
  rw [peek_eq_head?, peek_eq_head?, h.rest_eq]

theorem moveTo (h : c.Like c') (after : List UInt8) : (c.moveTo after).Like (c'.moveTo after) := by
  refine ⟨?_, ?_⟩
  · show c'.pos + _ = c.pos + _
    rw [h.pos_eq, h.rest_eq]
  · simp only [Cursor.moveTo]
    rw [c'.rest_add (Nat.sub_le _ _), c.rest_add (Nat.sub_le _ _), h.rest_eq]

theorem advance (h : c.Like c') (hne : c.peek ≠ Byte.marker) : c.advance.Like c'.advance := by
  have hpos : 0 < c.rest.length := List.length_pos_iff.2 (mt c.rest_eq_nil_iff.1 hne)
  refine ⟨congrArg (· + 1) h.pos_eq, ?_⟩
  simp only [Cursor.advance]
  rw [c'.rest_add (h.rest_eq ▸ hpos), c.rest_add hpos, h.rest_eq]

theorem skipBlanks (h : c.Like c') : c.skipBlanks.Like c'.skipBlanks := by
  unfold Cursor.skipBlanks
  rw [h.rest_eq]
  exact h.moveTo _

theorem atEndOfLine_eq (h : c.Like c') : c'.atEndOfLine = c.atEndOfLine := by
  simp only [atEndOfLine, h.peek_eq]

theorem atEndOfStatement_eq (h : c.Like c') : c'.atEndOfStatement = c.atEndOfStatement := by
  simp only [atEndOfStatement, h.peek_eq]

theorem letter?_eq (h : c.Like c') : c'.letter? = c.letter? := by
  simp only [letter?, h.rest_eq]

theorem token {τ : Type} (h : c.Like c') (vocabulary : Vocabulary τ) :
    (c'.token vocabulary).1 = (c.token vocabulary).1 ∧
    (c.token vocabulary).2.Like (c'.token vocabulary).2 := by
  unfold Cursor.token
  rw [h.rest_eq]
  exact ⟨rfl, h.moveTo _⟩

theorem quoted?_eq_none (h : c.Like c') (hq : c.quoted? = none) : c'.quoted? = none := by
  rw [Cursor.quoted?, Option.map_eq_none_iff] at hq ⊢
  rw [h.rest_eq, hq]

theorem quoted?_eq_some {literal : List UInt8} {after : Cursor} (h : c.Like c')
    (hq : c.quoted? = some (literal, after)) :
    ∃ after', c'.quoted? = some (literal, after') ∧ after.Like after' := by
  obtain ⟨⟨found, left⟩, hfound, he⟩ := Option.map_eq_some_iff.1 hq
  cases he
  refine ⟨c'.moveTo left, ?_, h.moveTo left⟩
  rw [Cursor.quoted?, h.rest_eq, hfound]
  rfl

theorem lineNumber (h : c.Like c') :
    c'.lineNumber.1 = c.lineNumber.1 ∧ c.lineNumber.2.Like c'.lineNumber.2 := by
  unfold Cursor.lineNumber
  rw [h.rest_eq]
  exact ⟨rfl, h.moveTo _⟩

theorem expression (h : c.Like c') :
    c'.expression.1 = c.expression.1 ∧ c.expression.2.Like c'.expression.2 := by
  unfold Cursor.expression
  rw [h.rest_eq]
  exact ⟨rfl, h.moveTo _⟩

theorem expect (h : c.Like c') {b : UInt8} (hb : b ≠ Byte.marker) :
    (c'.expect b).1 = (c.expect b).1 ∧ (c.expect b).2.Like (c'.expect b).2 := by
  unfold Cursor.expect
  dsimp only
  rw [h.skipBlanks.peek_eq]
  split
  case isTrue hp => exact ⟨rfl, (h.skipBlanks.advance (hp ▸ hb)).skipBlanks⟩
  case isFalse => exact ⟨rfl, h.skipBlanks⟩

/-- What has been read alike from both is the same, and leaves cursors that are alike. -/
theorem exists_read {α : Type} {read read' : α × Cursor}
    (h : read'.1 = read.1 ∧ read.2.Like read'.2) :
    ∃ a c₁ c₁', read = (a, c₁) ∧ read' = (a, c₁') ∧ c₁.Like c₁' := by
  obtain ⟨a, c₁⟩ := read
  obtain ⟨a', c₁'⟩ := read'
  obtain ⟨rfl, hlike⟩ := h
  exact ⟨a', c₁, c₁', rfl, rfl, hlike⟩

end Like

/-- The two cursors stand at the same position, and their texts agree from there to the end of the
line and at it. -/
structure Agrees (c c' : Cursor) : Prop where
  pos_eq : c'.pos = c.pos
  getD_eq : ∀ i, c.pos ≤ i → i ≤ endOfLine c.text c.pos →
  c'.text.getD i Byte.marker = c.text.getD i Byte.marker

namespace Agrees
variable {c c' : Cursor}

theorem endOfLine_eq (h : c.Agrees c') : endOfLine c'.text c'.pos = endOfLine c.text c.pos := by
  have hge := le_endOfLine c.text c.pos
  rw [h.pos_eq]
  refine LineBasic.endOfLine_eq hge (fun k hlo hhi => ?_) ?_
  · rw [h.getD_eq k hlo (Nat.le_of_lt hhi)]
    exact getD_ne_marker hlo hhi
  · rw [h.getD_eq _ hge (Nat.le_refl _)]
    exact getD_endOfLine c.text c.pos

/-- Where two texts agree to the end of a line, the same is left of it. -/
theorem like (h : c.Agrees c') : c.Like c' := by
  have hlength : c'.rest.length = c.rest.length := by rw [length_rest, length_rest,
    h.endOfLine_eq, h.pos_eq]
  have hend := c.pos_add_length_rest
  refine ⟨h.pos_eq, List.ext_getElem? fun i => ?_⟩
  rw [getElem?_rest, getElem?_rest, hlength, h.pos_eq]
  split
  · have hlo := Nat.le_add_right c.pos i
    have hhi : c.pos + i < endOfLine c.text c.pos := by omega
    exact getElem?_eq_of_getD (h.getD_eq _ hlo (Nat.le_of_lt hhi)) (getD_ne_marker hlo hhi)
  · rfl

end Agrees

end Cursor
end LineBasic
