import LineBasic.Proofs.Expr.Evaluation

namespace LineBasic

namespace Cursor
variable {c : Cursor} {text after rest : List UInt8} {b : UInt8}

theorem moveTo_moveTo (h : text <:+ c.rest) (ha : after <:+ text) :
    (c.moveTo text).moveTo after = c.moveTo after := by
  have hlength := h.length_le
  have hafter := ha.length_le
  have hrest := c.rest_moveTo h
  rw [moveTo, hrest]
  simp only [moveTo, mk.injEq, true_and]
  omega

theorem peek_moveTo (h : text <:+ c.rest) : (c.moveTo text).peek = text.head?.getD Byte.marker := by
  rw [peek_eq_head?, c.rest_moveTo h]

theorem peek_moveTo_cons (h : b :: rest <:+ c.rest) : (c.moveTo (b :: rest)).peek = b :=
  peek_moveTo h

theorem peek_moveTo_nil (c : Cursor) : (c.moveTo []).peek = Byte.marker :=
  peek_moveTo List.nil_suffix

theorem advance_moveTo (h : b :: rest <:+ c.rest) :
    (c.moveTo (b :: rest)).advance = c.moveTo rest := by
  have hlength := h.length_le
  rw [List.length_cons] at hlength
  simp only [moveTo, advance, List.length_cons, mk.injEq, true_and]
  omega

theorem getElem?_moveTo_cons (h : b :: rest <:+ c.rest) :
    c.text[(c.moveTo (b :: rest)).pos]? = some b := by
  have hget := (c.moveTo (b :: rest)).getElem?_rest 0
  rw [c.rest_moveTo h, if_pos (by simp)] at hget
  exact hget.symm

/-- Where nothing is left of the line a marker stands, or the text has ended. -/
theorem getElem?_moveTo_nil (c : Cursor) : ∀ b ∈ c.text[(c.moveTo []).pos]?, b = Byte.marker := by
  intro b hb
  have hpeek := c.peek_moveTo_nil
  rw [peek, peekAt, Nat.add_zero, Array.getD_eq_getD_getElem?] at hpeek
  change c.text[(c.moveTo []).pos]?.getD Byte.marker = Byte.marker at hpeek
  rw [Option.mem_def.1 hb] at hpeek
  exact hpeek

theorem Within.length_le {c' : Cursor} (h : c.Within c') : c'.rest.length ≤ c.rest.length := by
  rw [length_rest, length_rest, h.text_eq, endOfLine_eq_of_le h.le h.le_end]
  exact Nat.sub_le_sub_left h.le _

theorem toList_extract_moveTo {front : List UInt8} (h : front ++ after <:+ c.rest) :
    (c.text.extract (c.moveTo (front ++ after)).pos (c.moveTo after).pos).toList = front := by
  have hlength := h.length_le
  rw [List.length_append] at hlength
  have hpos : (c.moveTo after).pos = (c.moveTo (front ++ after)).pos + front.length := by
    simp only [moveTo, List.length_append]
    omega
  have hle : front.length ≤ (c.moveTo (front ++ after)).rest.length := by
    rw [c.rest_moveTo h, List.length_append]
    omega
  have htake := (c.moveTo (front ++ after)).toList_extract_add hle
  rwa [c.rest_moveTo h, List.take_left, ← hpos] at htake

/-- All of the text from the cursor on is the rest of its line, with nothing or a marker behind it.
-/
theorem exists_beyond (c : Cursor) :
    ∃ beyond, (c.text.extract c.pos c.text.size).toList = c.rest ++ beyond ∧
    ∀ b ∈ beyond.head?, b = Byte.marker := by
  have hend := c.pos_add_length_rest
  have hlength := c.length_rest
  have hprefix : c.rest <+: (c.text.extract c.pos c.text.size).toList := by
    rw [rest, Array.toList_extract, Array.toList_extract, List.extract_eq_take_drop,
      List.extract_eq_take_drop]
    by_cases hle : c.pos ≤ c.text.size
    · exact List.take_prefix_take_left (Nat.sub_le_sub_right (endOfLine_le_size hle) _)
    · simp [List.drop_eq_nil_of_le (show c.text.toList.length ≤ c.pos by simp; omega)]
  obtain ⟨beyond, hbeyond⟩ := hprefix
  refine ⟨beyond, hbeyond.symm, fun b hb => ?_⟩
  have hfirst : (c.rest ++ beyond)[c.rest.length]? = some b := by
    rwa [List.getElem?_append_right (Nat.le_refl _), Nat.sub_self, ← List.head?_eq_getElem?]
  rw [hbeyond, Array.getElem?_toList, Array.getElem?_extract] at hfirst
  split at hfirst
  · have hmarker := getD_endOfLine c.text c.pos
    rw [← hend, Array.getD_eq_getD_getElem?, hfirst] at hmarker
    exact hmarker
  · cases hfirst

end Cursor

/-- No spelling of a token of the vocabulary has a marker in it. -/
def Vocabulary.Unmarked {τ : Type} (vocabulary : Vocabulary τ) : Prop :=
  ∀ entry ∈ vocabulary, Byte.marker ∉ ascii entry.1

instance {τ : Type} {vocabulary : Vocabulary τ} : Decidable vocabulary.Unmarked :=
  inferInstanceAs (Decidable (∀ entry ∈ vocabulary, Byte.marker ∉ ascii entry.1))

/-- What has no marker in it does not reach beyond a line. -/
theorem isPrefixOf_append {letters beyond : List UInt8} (hl : Byte.marker ∉ letters)
    (hb : ∀ b ∈ beyond.head?, b = Byte.marker) (text : List UInt8) :
    letters.isPrefixOf (text ++ beyond) = letters.isPrefixOf text := by
  induction text generalizing letters with
  | nil =>
    -- Letters left over here would have to be matched by the marker.
    cases letters with
    | nil => cases beyond <;> rfl
    | cons first letters =>
      cases beyond with
      | nil => rfl
      | cons b beyond =>
        obtain rfl : b = Byte.marker := hb b rfl
        have hne : (first == Byte.marker) = false := beq_eq_false_iff_ne.2 fun he =>
          hl (he ▸ List.mem_cons_self)
        simp [List.isPrefixOf, hne]
  | cons c text ih =>
    cases letters with
    | nil => rfl
    | cons first letters =>
      rw [List.cons_append, List.isPrefixOf_cons_cons, List.isPrefixOf_cons_cons,
        ih fun hm => hl (List.mem_cons_of_mem _ hm)]

/-- So what is found at the front of a text is found in its line. -/
theorem Vocabulary.Unmarked.find?_append {τ : Type} {vocabulary : Vocabulary τ}
    (hv : vocabulary.Unmarked) {beyond : List UInt8} (hb : ∀ b ∈ beyond.head?, b = Byte.marker)
    (text : List UInt8) :
    vocabulary.find? (text ++ beyond) = vocabulary.find? text := by
  induction vocabulary with
  | nil => rfl
  | cons entry rest ih =>
    obtain ⟨hentry, hrest⟩ := List.forall_mem_cons.1 hv
    rw [LineBasic.find?_cons, LineBasic.find?_cons, isPrefixOf_append hentry hb, ih hrest]

theorem length_le_of_find? {τ : Type} {vocabulary : Vocabulary τ} {text : List UInt8} {token : τ}
    {length : Nat} (h : vocabulary.find? text = some (token, length)) : length ≤ text.length := by
  induction vocabulary with
  | nil => cases h
  | cons entry rest ih =>
    rw [find?_cons] at h
    split at h
    · rename_i hprefix
      cases h
      exact (List.isPrefixOf_iff_prefix.1 hprefix).length_le
    · exact ih h

namespace Walk

/-- Passes blanks. -/
def blanks : Nat → Cursor → Option Cursor
  | 0, _ => none
  | fuel + 1, c => if Byte.isBlank c.peek then blanks fuel c.advance else some c

def expect (b : UInt8) (fuel : Nat) (c : Cursor) : Option (Bool × Cursor) := do
  let c ← blanks fuel c
  if c.peek = b then return (true, ← blanks fuel c.advance) else return (false, c)

/-- The spellings are compared with all of the text from the cursor on. -/
def token {τ : Type} (vocabulary : Vocabulary τ) (fuel : Nat) (c : Cursor) :
    Option (Option τ × Cursor) := do
  let c ← blanks fuel c
  match vocabulary.find? (c.text.extract c.pos c.text.size).toList with
  | none => return (none, c)
  | some (token, length) => return (some token, ← blanks fuel { c with pos := c.pos + length })

def lineNumberFrom (n : UInt16) : Nat → Cursor → Option (UInt16 × Cursor)
  | 0, _ => none
  | fuel + 1, c =>
    if Byte.isDigit c.peek then
      if 65535 / 10 ≤ n then some (65535, c)
      else lineNumberFrom (n * 10 + (c.peek - byte '0').toUInt16) fuel c.advance
    else some (n, c)

def lineNumber (fuel : Nat) (c : Cursor) : Option (UInt16 × Cursor) := do
  lineNumberFrom 0 fuel (← blanks fuel c)

def closing (quote : UInt8) (text : Array UInt8) : Nat → Nat → Option (Option Nat)
  | 0, _ => none
  | fuel + 1, stop =>
    match text[stop]? with
    | none => some none
    | some b =>
      if b = quote then some (some stop)
      else if b = Byte.marker then some none
      else closing quote text fuel (stop + 1)

def quoted (fuel : Nat) (c : Cursor) : Option (Option (List UInt8) × Cursor) :=
  if Byte.isQuote c.peek then do
    match ← closing c.peek c.text fuel (c.pos + 1) with
    | none => return (none, c)
    | some stop =>
      return (some (c.text.extract (c.pos + 1) stop).toList, { c with pos := stop + 1 })
  else some (none, c)

section
variable {c : Cursor} {text : List UInt8} {fuel : Nat}

theorem blanks_moveTo (h : text <:+ c.rest) (hf : text.length < fuel) :
    blanks fuel (c.moveTo text) = some (c.moveTo (Lexeme.skipBlanks text)) := by
  induction text generalizing fuel with
  | nil =>
    obtain ⟨fuel, rfl⟩ := Nat.exists_eq_add_of_lt hf
    rw [blanks, Cursor.peek_moveTo_nil, if_neg (by decide)]
    rfl
  | cons b rest ih =>
    cases fuel with
    | zero => cases hf
    | succ fuel =>
      rw [blanks, Cursor.peek_moveTo_cons h, Cursor.advance_moveTo h,
        ih ((List.suffix_cons b rest).trans h) (Nat.lt_of_succ_lt_succ hf)]
      by_cases hb : Byte.isBlank b = true
      · simp [Lexeme.skipBlanks, hb]
      · simp [Lexeme.skipBlanks, hb]

theorem blanks_eq (c : Cursor) (hf : c.rest.length < fuel) : blanks fuel c = some c.skipBlanks := by
  have h := blanks_moveTo (List.suffix_refl c.rest) hf
  rwa [Cursor.moveTo_rest] at h

theorem expect_eq {b : UInt8} (hb : b ≠ Byte.marker) (c : Cursor) (hf : c.rest.length < fuel) :
    expect b fuel c = some (c.expect b) := by
  simp only [expect, Cursor.expect, blanks_eq c hf, Option.bind_eq_bind, Option.bind_some]
  split
  · rename_i hpeek
    have hafter := c.skipBlanks_within.trans (Cursor.advance_within (hpeek ▸ hb))
    rw [blanks_eq _ (Nat.lt_of_le_of_lt hafter.length_le hf)]
    rfl
  · rfl

/-- Comparing the spellings with what stands beyond the line finds nothing else. -/
theorem token_eq {τ : Type} {vocabulary : Vocabulary τ} (hv : vocabulary.Unmarked) (c : Cursor)
    (hf : c.rest.length < fuel) : token vocabulary fuel c = some (c.token vocabulary) := by
  obtain ⟨beyond, hbeyond, hmarker⟩ := c.skipBlanks.exists_beyond
  have hfind : vocabulary.find? (c.skipBlanks.text.extract c.skipBlanks.pos
    c.skipBlanks.text.size).toList =
      vocabulary.find? (Lexeme.skipBlanks c.rest) := by
    rw [hbeyond, hv.find?_append hmarker, c.rest_skipBlanks]
  simp only [token, blanks_eq c hf, Option.bind_eq_bind, Option.bind_some, hfind, Cursor.token,
    Lexeme.token]
  cases hfound : vocabulary.find? (Lexeme.skipBlanks c.rest) with
  | none => rfl
  | some found =>
    obtain ⟨found, length⟩ := found
    have hsuffix := Lexeme.skipBlanks_suffix c.rest
    have hafter := (List.drop_suffix length _).trans hsuffix
    have hpast : { c.skipBlanks with pos := c.skipBlanks.pos + length } =
        c.moveTo ((Lexeme.skipBlanks c.rest).drop length) := by
      have hlength := length_le_of_find? hfound
      have hskipped := hsuffix.length_le
      simp only [Cursor.skipBlanks, Cursor.moveTo, List.length_drop, Cursor.mk.injEq, true_and]
      omega
    simp only [hpast, blanks_moveTo hafter (Nat.lt_of_le_of_lt hafter.length_le hf)]
    rfl

theorem token_moveTo {τ : Type} {vocabulary : Vocabulary τ} (hv : vocabulary.Unmarked)
    (h : text <:+ c.rest) (hf : text.length < fuel) : token vocabulary fuel (c.moveTo text) =
      some ((Lexeme.token vocabulary text).1, c.moveTo (Lexeme.token vocabulary text).2) := by
  rw [token_eq hv _ (by rwa [c.rest_moveTo h]), Cursor.token, c.rest_moveTo h]
  dsimp only
  rw [Cursor.moveTo_moveTo h (Lexeme.token_suffix vocabulary text)]

theorem toUInt16_digit (n : Nat) {d : UInt8} (hd : Byte.isDigit d = true) :
    n.toUInt16 * 10 + (d - byte '0').toUInt16 = (10 * n + Byte.digitValue d).toUInt16 := by
  obtain ⟨hlo, hhi⟩ := Byte.isDigit_iff.1 hd
  have hle : byte '0' ≤ d := UInt8.le_iff_toNat_le.2 hlo
  have hdigit : (d - byte '0').toUInt16 = (Byte.digitValue d).toUInt16 := by
    apply UInt16.toNat_inj.1
    rw [UInt8.toNat_toUInt16, UInt8.toNat_sub_of_le _ _ hle]
    exact (UInt16.toNat_ofNat_of_lt' (show d.toNat - 48 < 65536 by omega)).symm
  rw [hdigit, UInt16.mul_comm]
  simp [Nat.toUInt16]

/-- The arithmetic of 16 bits is that of the numbers, as the digits end before it would wrap. -/
theorem lineNumberFrom_moveTo {n : Nat} (hn : n < 65536) (h : text <:+ c.rest)
    (hf : text.length < fuel) :
    lineNumberFrom n.toUInt16 fuel (c.moveTo text) =
      some ((Lexeme.lineNumberFrom n text).1.toUInt16,
      c.moveTo (Lexeme.lineNumberFrom n text).2) := by
  induction text generalizing n fuel with
  | nil =>
    obtain ⟨fuel, rfl⟩ := Nat.exists_eq_add_of_lt hf
    rw [lineNumberFrom, Cursor.peek_moveTo_nil, if_neg (by decide)]
    rfl
  | cons d rest ih =>
    -- The guard of the machine word is the guard of the number, as no number has wrapped up to
    -- here.
    have hfull : (65535 / 10 ≤ n.toUInt16) ↔ 6553 ≤ n := by
      have hvalue : n.toUInt16.toNat = n := UInt16.toNat_ofNat_of_lt' hn
      rw [UInt16.le_iff_toNat_le, hvalue]
      rfl
    cases fuel with
    | zero => cases hf
    | succ fuel =>
      rw [lineNumberFrom, Cursor.peek_moveTo_cons h, Cursor.advance_moveTo h, Lexeme.lineNumberFrom]
      simp only [hfull]
      by_cases hd : Byte.isDigit d = true
      · rw [if_pos hd, if_pos hd]
        by_cases hlarge : 6553 ≤ n
        · rw [if_pos hlarge, if_pos hlarge]
          rfl
        · have hdigit := Byte.isDigit_iff.1 hd
          rw [if_neg hlarge, if_neg hlarge, toUInt16_digit n hd]
          exact ih (by rw [Byte.digitValue]; omega) ((List.suffix_cons d rest).trans h)
            (Nat.lt_of_succ_lt_succ hf)
      · rw [if_neg hd, if_neg hd]

theorem lineNumber_eq (c : Cursor) (hf : c.rest.length < fuel) :
    lineNumber fuel c = some c.lineNumber := by
  have hsuffix := Lexeme.skipBlanks_suffix c.rest
  have h := lineNumberFrom_moveTo (show 0 < 65536 by decide) hsuffix
    (Nat.lt_of_le_of_lt hsuffix.length_le hf)
  simp only [lineNumber, blanks_eq c hf, Option.bind_eq_bind, Option.bind_some]
  exact h

/-- The first byte that is the quote closes the literal, unless a marker or the end of the text
comes before it. -/
theorem closing_moveTo {quote : UInt8} (hq : quote ≠ Byte.marker) (h : text <:+ c.rest)
    (hf : text.length < fuel) :
    closing quote c.text fuel (c.moveTo text).pos =
      some (match text.dropWhile (· != quote) with
        | [] => none
        | found => some (c.moveTo found).pos) := by
  induction text generalizing fuel with
  | nil =>
    -- The text of the line is used up: the search is at its marker or at the end of the buffer.
    obtain ⟨fuel, rfl⟩ := Nat.exists_eq_add_of_lt hf
    rw [closing]
    cases hbyte : c.text[(c.moveTo []).pos]? with
    | none => rfl
    | some b =>
      obtain rfl := c.getElem?_moveTo_nil b hbyte
      simp [hq.symm]
  | cons b rest ih =>
    have hmarker : b ≠ Byte.marker := fun he => c.marker_notMem_rest
      (h.subset (he ▸ List.mem_cons_self))
    cases fuel with
    | zero => cases hf
    | succ fuel =>
      rw [closing, Cursor.getElem?_moveTo_cons h]
      dsimp only
      by_cases hb : b = quote
      · simp [hb]
      · have hnext : (c.moveTo (b :: rest)).pos + 1 = (c.moveTo rest).pos :=
          congrArg Cursor.pos (Cursor.advance_moveTo h)
        rw [if_neg hb, if_neg hmarker, hnext, ih ((List.suffix_cons b rest).trans h)
          (Nat.lt_of_succ_lt_succ hf),
          List.dropWhile_cons, if_pos (bne_iff_ne.2 hb)]

/-- What is read where a literal may begin. -/
def literal (c : Cursor) : Option (List UInt8) × Cursor :=
  match c.quoted? with
  | none => (none, c)
  | some (literal, after) => (some literal, after)

theorem quoted_eq (c : Cursor) (hf : c.rest.length < fuel) : quoted fuel c = some (literal c) := by
  cases hrest : c.rest with
  | nil =>
    have hpeek : c.peek = Byte.marker := c.rest_eq_nil_iff.1 hrest
    rw [quoted, hpeek, if_neg (by decide), literal, Cursor.quoted?, hrest]
    rfl
  | cons quote rest =>
    have hpeek : c.peek = quote := by
      rw [Cursor.peek_eq_head?, hrest]
      rfl
    rw [quoted, hpeek, literal, Cursor.quoted?, hrest, Lexeme.quoted?]
    by_cases hq : Byte.isQuote quote = true
    · have hmarker : quote ≠ Byte.marker := fun he => by
        rw [he] at hq
        exact absurd hq (by decide)
      have hsuffix : quote :: rest <:+ c.rest := hrest ▸ List.suffix_refl _
      have htail := (List.suffix_cons quote rest).trans hsuffix
      have hnext : c.pos + 1 = (c.moveTo rest).pos := by
        rw [← Cursor.advance_moveTo hsuffix, ← hrest, Cursor.moveTo_rest]
        rfl
      rw [if_pos hq, if_pos hq, hnext, closing_moveTo hmarker htail
        (Nat.lt_of_le_of_lt htail.length_le hf)]
      cases hfound : rest.dropWhile (· != quote) with
      | nil => rfl
      | cons stop after =>
        have hsplit := List.takeWhile_append_dropWhile (p := (· != quote)) (l := rest)
        rw [hfound] at hsplit
        have hstop : stop :: after <:+ c.rest := List.IsSuffix.trans ⟨_, hsplit⟩ htail
        have hinner := Cursor.toList_extract_moveTo (hsplit.symm ▸ htail)
        rw [hsplit] at hinner
        have hclose : ({ c with pos := (c.moveTo (stop :: after)).pos + 1 } : Cursor) =
            c.moveTo after :=
          Cursor.advance_moveTo hstop
        show some (some (c.text.extract (c.moveTo rest).pos (c.moveTo (stop :: after)).pos).toList,
          ({ c with pos := (c.moveTo (stop :: after)).pos + 1 } : Cursor)) = _
        rw [hinner, hclose]
        rfl
    · rw [if_neg hq, if_neg hq]
      rfl

end

def reach (c : Cursor) : Nat :=
  7 * c.rest.length + 8

theorem length_lt_of_reach {c : Cursor} {fuel : Nat} (hf : reach c ≤ fuel) :
    c.rest.length < fuel := by
  rw [reach] at hf
  omega

/-- The walk ends wherever it starts, giving what is read there. It ends in the line it starts in,
and nothing behind the end of the line makes a difference to it. -/
structure Local {α : Type} (walk : Nat → Cursor → Option (α × Cursor))
    (read : Cursor → α × Cursor) : Prop where
  ends : ∀ c fuel, reach c ≤ fuel → walk fuel c = some (read c)
  within : ∀ c : Cursor, c.Within (read c).2
  alike : ∀ {c c' : Cursor}, c.Agrees c' → (read c').1 = (read c).1 ∧
  (read c').2.pos = (read c).2.pos

theorem local_of_like {α : Type} {walk : Nat → Cursor → Option (α × Cursor)}
    {read : Cursor → α × Cursor}
    (ends : ∀ c fuel, reach c ≤ fuel → walk fuel c = some (read c))
      (within : ∀ c : Cursor, c.Within (read c).2)
    (alike : ∀ {c c' : Cursor}, c.Like c' → (read c').1 = (read c).1 ∧
      (read c).2.Like (read c').2) :
    Local walk read := by
  refine ⟨ends, within, fun hagrees => ?_⟩
  obtain ⟨hvalue, hlike⟩ := alike hagrees.like
  exact ⟨hvalue, hlike.pos_eq⟩

theorem literal_within (c : Cursor) : c.Within (literal c).2 := by
  rw [literal]
  cases hquoted : c.quoted? with
  | none => exact .refl c
  | some found => exact Cursor.quoted?_within hquoted

theorem literal_alike {c c' : Cursor} (h : c.Like c') :
    (literal c').1 = (literal c).1 ∧ (literal c).2.Like (literal c').2 := by
  rw [literal, literal]
  cases hquoted : c.quoted? with
  | none =>
    rw [h.quoted?_eq_none hquoted]
    exact ⟨rfl, h⟩
  | some found =>
    obtain ⟨after', hquoted', hafter⟩ := h.quoted?_eq_some hquoted
    rw [hquoted']
    exact ⟨rfl, hafter⟩

end Walk
end LineBasic
