import LineBasic.Proofs.Expr.Completeness

namespace LineBasic

namespace Expr

def Clean : Expr → Prop
  | literal _ | var _ | absent => True
  | negate e | call _ e | group e => e.Clean
  | arith _ left right | compare _ left right => left.Clean ∧ right.Clean
  | unclosed _ | malformed _ => False

theorem fault_fail_ne_none (t : Trial) (why : Diagnostic) : (t.fail why).fault ≠ none := by
  show t.fault.or (some why) ≠ none
  cases t.fault with
  | none => exact Option.some_ne_none _
  | some first => exact Option.some_ne_none _

theorem fault_of_eval {s : Surroundings} {e : Expr} {t : Trial} (h : (e.eval s t).2.fault = none) :
    t.fault = none := by
  cases ht : t.fault with
  | none => rfl
  | some why => exact absurd h (by rw [fault_eval s e ht]; exact Option.some_ne_none _)

theorem clean_of_eval {s : Surroundings} {e : Expr} {t : Trial} (h : (e.eval s t).2.fault = none) :
    e.Clean := by
  -- A fault is never taken back, so that no operand has one.
  induction e generalizing t with
  | literal n => exact trivial
  | var v => exact trivial
  | negate e ih => exact ih h
  | absent => exact trivial
  | arith op left right ihl ihr =>
    simp only [eval] at h
    split at h
    · exact ⟨ihl (fault_of_eval h), ihr h⟩
    · exact absurd h (fault_fail_ne_none _ _)
  | compare relation left right ihl ihr =>
    simp only [eval] at h
    exact ⟨ihl (fault_of_eval h), ihr h⟩
  | call f argument ih =>
    simp only [eval] at h
    split at h
    · exact ih h
    · exact absurd h (fault_fail_ne_none _ _)
  | group e ih => exact ih h
  | unclosed e ih => exact absurd h (fault_fail_ne_none _ _)
  | malformed why => exact absurd h (fault_fail_ne_none _ _)

end Expr

def Tight (text rest : List UInt8) : Prop :=
  ∃ passed, text = passed ++ rest ∧ ∀ b ∈ passed, ¬ Byte.isBlank b = true

namespace Tight
variable {text middle rest : List UInt8}

theorem front (h : Tight text rest) (hr : rest <:+ middle) (hm : middle <:+ text) :
    Tight text middle := by
  obtain ⟨passed, he, hb⟩ := h
  obtain ⟨first, rfl⟩ := hm
  obtain ⟨second, rfl⟩ := hr
  rw [← List.append_assoc] at he
  have := List.append_cancel_right he
  subst this
  exact ⟨first, rfl, fun b hm => hb b (List.mem_append_left _ hm)⟩

theorem back (h : Tight text rest) (hr : rest <:+ middle) (hm : middle <:+ text) :
    Tight middle rest := by
  obtain ⟨passed, he, hb⟩ := h
  obtain ⟨first, rfl⟩ := hm
  obtain ⟨second, rfl⟩ := hr
  rw [← List.append_assoc] at he
  have := List.append_cancel_right he
  subst this
  exact ⟨second, rfl, fun b hm => hb b (List.mem_append_right _ hm)⟩

/-- Blanks are skipped in front of what is left only if there are none. -/
theorem skipBlanks (h : Tight text rest) (hr : rest <:+ Lexeme.skipBlanks text) :
    Lexeme.skipBlanks text = text := by
  cases text with
  | nil => rfl
  | cons b tail =>
    by_cases hb : Byte.isBlank b = true
    · have hskip : Lexeme.skipBlanks (b :: tail) = Lexeme.skipBlanks tail :=
        List.dropWhile_cons_of_pos hb
      rw [hskip] at hr
      have hlength := (hr.trans (Lexeme.skipBlanks_suffix tail)).length_le
      obtain ⟨passed, he, hp⟩ := h
      cases passed with
      | nil =>
        rw [List.nil_append] at he
        rw [← he, List.length_cons] at hlength
        omega
      | cons c passed =>
        rw [List.cons_append] at he
        exact absurd hb ((List.cons.inj he).1 ▸ hp c List.mem_cons_self)
    · exact Expr.skipBlanks_cons hb tail

end Tight

theorem find?_eq_some {τ : Type} {vocabulary : Vocabulary τ} {text : List UInt8} {token : τ}
    {length : Nat} (h : vocabulary.find? text = some (token, length)) :
    ∃ spelling, (spelling, token) ∈ vocabulary ∧ text = ascii spelling ++ text.drop length := by
  obtain ⟨⟨spelling, found⟩, hm, he⟩ := List.exists_of_findSome?_eq_some h
  dsimp only at he
  split at he
  · rename_i hprefix
    cases he
    exact ⟨spelling, hm, (List.prefix_iff_eq_append.1 (List.isPrefixOf_iff_prefix.1 hprefix)).symm⟩
  · cases he

/-- A token that is passed without blanks stands at the front of the text. -/
theorem token_eq_some {τ : Type} {vocabulary : Vocabulary τ} {text after rest : List UInt8}
    {token : τ} (h : Lexeme.token vocabulary text = (some token, after)) (ht : Tight text rest)
    (hr : rest <:+ after) :
    ∃ spelling, (spelling, token) ∈ vocabulary ∧ text = ascii spelling ++ after := by
  unfold Lexeme.token at h
  dsimp only at h
  split at h
  · cases h
  · rename_i found length hfind
    obtain ⟨hfound, rfl⟩ := Prod.mk.inj h
    obtain rfl := Option.some.inj hfound
    have hdrop := hr.trans (Lexeme.skipBlanks_suffix _)
    have hfront := hdrop.trans (List.drop_suffix _ _)
    have htext := ht.skipBlanks hfront
    rw [htext] at hfind hdrop hr ⊢
    rw [(ht.back hdrop (List.drop_suffix _ _)).skipBlanks hr]
    exact find?_eq_some hfind

theorem spelling_of_mem {f : Function} {spelling : String}
    (h : (spelling, f) ∈ Function.vocabulary) :
    spelling = Function.vocabulary.spelling f := by
  simp only [Function.vocabulary, List.mem_cons, Prod.mk.injEq, List.not_mem_nil, or_false] at h
  rcases h with ⟨rfl, rfl⟩ | ⟨rfl, rfl⟩ | ⟨rfl, rfl⟩ | ⟨rfl, rfl⟩ | ⟨rfl, rfl⟩
  all_goals rfl

theorem letter_of_ofLetter? {b : UInt8} {v : Variable} (h : Variable.ofLetter? b = some v) :
    v.letter = b := by
  unfold Variable.ofLetter? at h
  split at h
  · rename_i hb
    cases h
    rw [Variable.letter, ← UInt8.toNat_inj, UInt8.toNat_ofNat']
    show (65 + (b.toNat - 65)) % 256 = b.toNat
    omega
  · cases h

theorem letter_of_letter? {b : UInt8} {rest : List UInt8} {v : Variable}
    (h : Lexeme.letter? (b :: rest) = some v) :
    v.letter = b := by
  rw [Lexeme.letter?] at h
  split at h
  · cases h
  · exact letter_of_ofLetter? h

theorem operator_of_factorOperator? {c : UInt8} {op : Operator}
    (h : Expr.factorOperator? c = some op) :
    ∃ sign : FactorSign, sign.byte = c ∧ sign.operator = op := by
  unfold Expr.factorOperator? at h
  split at h
  · subst c
    cases h
    exact ⟨.star, rfl, rfl⟩
  split at h
  · subst c
    cases h
    exact ⟨.percent, rfl, rfl⟩
  split at h
  · subst c
    cases h
    exact ⟨.slash, rfl, rfl⟩
  · cases h

theorem operator_of_signOperator? {c : UInt8} {op : Operator} (h : Expr.signOperator? c = some op) :
    ∃ sign : Sign, sign.byte = c ∧ sign.operator = op := by
  unfold Expr.signOperator? at h
  split at h
  · subst c
    cases h
    exact ⟨.minus, rfl, rfl⟩
  split at h
  · subst c
    cases h
    exact ⟨.plus, rfl, rfl⟩
  · cases h

namespace Reading

theorem suffix_of_parts_eq {text rest : List UInt8} {r : Reading text} {e : Expr}
    (h : r.parts = (e, rest)) :
    rest <:+ text := by
  cases h
  exact r.rest_suffix

theorem closed_eq {wrap : Expr → Expr} {read : Expr × List UInt8} {e : Expr} {rest : List UInt8}
    (h : closed wrap read = (e, rest)) (hc : e.Clean) :
    e = wrap read.1 ∧ read.2 = byte ')' :: rest := by
  obtain ⟨inner, text⟩ := read
  cases text with
  | nil =>
    cases h
    exact hc.elim
  | cons c tail =>
    rw [closed] at h
    split at h
    · rename_i hclose
      cases h
      exact ⟨rfl, by rw [hclose]⟩
    · cases h
      exact hc.elim

theorem closed_suffix (wrap : Expr → Expr) (read : Expr × List UInt8) :
    (closed wrap read).2 <:+ read.2 := by
  obtain ⟨inner, text⟩ := read
  cases text with
  | nil => exact List.suffix_refl _
  | cons c tail =>
    rw [closed]
    split
    · exact List.suffix_cons c tail
    · exact List.suffix_refl _

theorem suffix_of_closed_eq {wrap : Expr → Expr} {text rest : List UInt8} {r : Reading text}
    {e : Expr} (h : closed wrap r.parts = (e, rest)) : rest <:+ text := by
  have hclosed := closed_suffix wrap r.parts
  rw [h] at hclosed
  exact hclosed.trans r.rest_suffix

end Reading

namespace Expr

theorem readPrimary_suffix (text : List UInt8) :
    (readPrimary text).parts.2 <:+ Lexeme.skipBlanks text := by
  cases hskip : Lexeme.skipBlanks text with
  | nil =>
    simp only [parts_readPrimary hskip, List.suffix_refl]
  | cons c rest =>
    have hcons := List.suffix_cons c rest
    rw [parts_readPrimary hskip]
    dsimp only
    split
    · exact (readPrimary rest).rest_suffix.trans hcons
    split
    · exact hcons
    split
    · exact List.dropWhile_suffix _
    split
    · exact hcons
    split
    · exact (readCall (c :: rest)).rest_suffix
    split
    · exact (Reading.closed_suffix _ _).trans ((readRelation rest).rest_suffix.trans hcons)
    · exact List.suffix_refl _

structure Chain (operator? : UInt8 → Option Operator) (operand : List UInt8 → Expr × List UInt8)
    (chain : Expr → List UInt8 → Expr × List UInt8) : Prop where
  nil (left : Expr) : chain left [] = (left, [])
  cons (left : Expr) (c : UInt8) (rest : List UInt8) : chain left (c :: rest) =
    match operator? c with
    | none => (left, c :: rest)
    | some op => chain (.arith op left (operand rest).1) (operand rest).2
  operand_suffix (text : List UInt8) : (operand text).2 <:+ text
  chain_suffix (left : Expr) (text : List UInt8) : (chain left text).2 <:+ text

theorem chain_factors : Chain factorOperator? (fun text => (readPrimary text).parts)
    fun left text => (readFactors left text).parts :=
  ⟨parts_readFactors_nil, parts_readFactors_cons, fun text => (readPrimary text).rest_suffix,
    fun left text => (readFactors left text).rest_suffix⟩

theorem chain_terms : Chain signOperator? (fun text => (readTerm text).parts)
    fun left text => (readTerms left text).parts :=
  ⟨parts_readTerms_nil, parts_readTerms_cons, fun text => (readTerm text).rest_suffix,
    fun left text => (readTerms left text).rest_suffix⟩

/-- What stands to the left of a chain is part of what is read. -/
theorem Chain.clean {operator? : UInt8 → Option Operator} {operand : List UInt8 → Expr × List UInt8}
    {chain : Expr → List UInt8 → Expr × List UInt8} (h : Chain operator? operand chain)
    {left : Expr} {text : List UInt8} (hc : (chain left text).1.Clean) : left.Clean := by
  -- By the length of the text, as an operand may pass any number of bytes.
  induction hn : text.length using Nat.strongRecOn generalizing left text with
  | _ n ih =>
    cases text with
    | nil =>
      rw [h.nil] at hc
      exact hc
    | cons c rest =>
      rw [h.cons] at hc
      split at hc
      · exact hc
      · have hlength := (h.operand_suffix rest).length_le
        rw [List.length_cons] at hn
        exact (ih _ (by omega) hc rfl).1

end Expr

open LineBasic.Expr

/-- What is read as a phrase of each rank. -/
def Rank.read : Rank → List UInt8 → Expr × List UInt8
  | primary, text => (readPrimary text).parts
  | term, text => (readTerm text).parts
  | additive, text => (readAdditive text).parts
  | relation, text => (readRelation text).parts

/-- What is read from a text of at most this length without a fault and without a blank is the
spelling of a phrase. -/
def Rank.Sound (rank : Rank) (n : Nat) : Prop :=
  ∀ ⦃text rest : List UInt8⦄ ⦃e : Expr⦄, text.length ≤ n → rank.read text = (e, rest) → e.Clean →
    Tight text rest →
    ∃ p : Phrase rank, p.expr false = e ∧ text = p.spell ++ rest

section
variable {n : Nat} {text rest : List UInt8} {e : Expr}

/-- What is read by a chain after a phrase makes a longer phrase with it, if there is a phrase for
every operator between two of its operands. -/
theorem chain_sound {operator? : UInt8 → Option Operator}
    {chain : Expr → List UInt8 → Expr × List UInt8} {whole part : Rank}
    (h : Chain operator? part.read chain)
    (hjoin : ∀ c op, operator? c = some op → ∃ join : Phrase whole → Phrase part → Phrase whole,
      ∀ a b, (join a b).expr false = .arith op (a.expr false) (b.expr false) ∧
      (join a b).spell = a.spell ++ c :: b.spell) (hpart : part.Sound n) (hn : text.length ≤ n)
    (a : Phrase whole) (hread : chain (a.expr false) text = (e, rest)) (hc : e.Clean)
    (ht : Tight text rest) :
    ∃ a' : Phrase whole, a'.expr false = e ∧ a'.spell ++ rest = a.spell ++ text := by
  -- By the length of the text. The phrase to the left grows by one operand in each round.
  induction hlen : text.length using Nat.strongRecOn generalizing a text with
  | _ k ih =>
    cases text with
    | nil =>
      rw [h.nil] at hread
      cases hread
      exact ⟨a, rfl, rfl⟩
    | cons c tail =>
      rw [h.cons] at hread
      split at hread
      · cases hread
        exact ⟨a, rfl, rfl⟩
      · rename_i op hop
        obtain ⟨join, hjoined⟩ := hjoin c op hop
        have hclean := h.clean (by rw [hread]; exact hc)
        have hsuffix := h.operand_suffix tail
        have hafter : rest <:+ (part.read tail).2 := by
          have := h.chain_suffix (.arith op (a.expr false) (part.read tail).1) (part.read tail).2
          rwa [hread] at this
        have htail := ht.back (hafter.trans hsuffix) (List.suffix_cons _ tail)
        rw [List.length_cons] at hn hlen
        have hlength := hsuffix.length_le
        obtain ⟨b, hbe, hbs⟩ := hpart (by omega) rfl hclean.2 (htail.front hafter hsuffix)
        have hnext : chain ((join a b).expr false) (part.read tail).2 = (e, rest) := by
          rw [(hjoined a b).1, hbe]
          exact hread
        obtain ⟨a', he, hs⟩ := ih _ (by omega) (by omega) _ hnext (htail.back hafter hsuffix) rfl
        refine ⟨a', he, ?_⟩
        rw [hs, (hjoined a b).2, List.append_assoc, List.cons_append]
        exact congrArg (fun after => a.spell ++ c :: after) hbs.symm

theorem factors_sound (hp : Rank.primary.Sound n) (hn : text.length ≤ n) (t : Phrase .term)
    (hread : (readFactors (t.expr false) text).parts = (e, rest)) (hc : e.Clean)
    (ht : Tight text rest) :
    ∃ t' : Phrase .term, t'.expr false = e ∧ t'.spell ++ rest = t.spell ++ text := by
  refine chain_sound chain_factors (fun c op hop => ?_) hp hn t hread hc ht
  obtain ⟨sign, rfl, rfl⟩ := operator_of_factorOperator? hop
  exact ⟨fun t p => t.factor sign p, fun _ _ => ⟨rfl, rfl⟩⟩

theorem term_sound (hp : Rank.primary.Sound n) : Rank.term.Sound n := by
  intro text rest e hn hread hc ht
  rw [Rank.read, parts_readTerm] at hread
  have hsuffix := (readPrimary text).rest_suffix
  have hafter : rest <:+ Lexeme.skipBlanks (readPrimary text).rest :=
    Reading.suffix_of_parts_eq hread
  have hrest := hafter.trans (Lexeme.skipBlanks_suffix _)
  have hclean := chain_factors.clean (by rw [hread]; exact hc)
  obtain ⟨p, hpe, hps⟩ := hp hn rfl hclean (ht.front hrest hsuffix)
  have hback := ht.back hrest hsuffix
  have hnext : (readFactors ((Phrase.single p).expr false) (readPrimary text).rest).parts =
      (e, rest) := by
    rw [Phrase.expr, hpe, ← hback.skipBlanks hafter]
    exact hread
  obtain ⟨t, he, hs⟩ := factors_sound hp (Nat.le_trans hsuffix.length_le hn) _ hnext hc hback
  exact ⟨t, he, hps.trans hs.symm⟩

theorem terms_sound (hterm : Rank.term.Sound n) (hn : text.length ≤ n) (a : Phrase .additive)
    (hread : (readTerms (a.expr false) text).parts = (e, rest)) (hc : e.Clean)
    (ht : Tight text rest) :
    ∃ a' : Phrase .additive, a'.expr false = e ∧ a'.spell ++ rest = a.spell ++ text := by
  refine chain_sound chain_terms (fun c op hop => ?_) hterm hn a hread hc ht
  obtain ⟨sign, rfl, rfl⟩ := operator_of_signOperator? hop
  exact ⟨fun a t => a.joined sign t, fun _ _ => ⟨rfl, rfl⟩⟩

theorem additive_sound (hterm : Rank.term.Sound n) : Rank.additive.Sound n := by
  intro text rest e hn hread hc ht
  rw [Rank.read, parts_readAdditive] at hread
  split at hread
  · rename_i hsign
    cases text with
    | nil => cases hsign
    | cons c tail =>
      obtain ⟨op, hop⟩ := Option.isSome_iff_exists.1 hsign
      rw [List.head?_cons, Option.bind_some] at hop
      rw [parts_readTerms_cons, hop] at hread
      dsimp only at hread
      obtain ⟨sign, rfl, rfl⟩ := operator_of_signOperator? hop
      have hclean := chain_terms.clean (by rw [hread]; exact hc)
      have hafter : rest <:+ (readTerm tail).rest := Reading.suffix_of_parts_eq hread
      have hsuffix := (readTerm tail).rest_suffix
      have htail := ht.back (hafter.trans hsuffix) (List.suffix_cons _ tail)
      rw [List.length_cons] at hn
      obtain ⟨t, hte, hts⟩ := hterm (by omega) rfl hclean.2 (htail.front hafter hsuffix)
      have hnext : (readTerms ((Phrase.signed sign t).expr false) (readTerm tail).rest).parts =
          (e, rest) := by
        rw [Phrase.expr, hte]
        exact hread
      have hlength := hsuffix.length_le
      obtain ⟨a, he, hs⟩ := terms_sound hterm (by omega) _ hnext hc (htail.back hafter hsuffix)
      refine ⟨a, he, ?_⟩
      rw [hs, Phrase.spell, List.cons_append]
      exact congrArg (sign.byte :: ·) hts
  · rename_i hsign
    have hclean := chain_terms.clean (by rw [hread]; exact hc)
    have hafter : rest <:+ (readTerm text).rest := Reading.suffix_of_parts_eq hread
    have hsuffix := (readTerm text).rest_suffix
    obtain ⟨t, hte, hts⟩ := hterm hn rfl hclean (ht.front hafter hsuffix)
    -- A term that began with a minus sign would have been read as a signed one.
    have hneg : t.negative = false := by
      obtain ⟨b, tail, he, hb⟩ := (t.spaced_spell false).opens
      cases hneg : t.negative with
      | false => rfl
      | true =>
        rw [hneg, if_pos rfl] at hb
        rw [hts, he, hb] at hsign
        exact absurd rfl hsign
    have hnext : (readTerms ((Phrase.unsigned t).expr false) (readTerm text).rest).parts =
        (e, rest) := by
      rw [Phrase.expr, hneg, hte]
      exact hread
    have hlength := hsuffix.length_le
    obtain ⟨a, he, hs⟩ := terms_sound hterm (by omega) _ hnext hc (ht.back hafter hsuffix)
    exact ⟨a, he, hts.trans hs.symm⟩

theorem relation_sound (ha : Rank.additive.Sound n) : Rank.relation.Sound n := by
  intro text rest e hn hread hc ht
  rw [Rank.read, parts_readRelation rfl] at hread
  have hsuffix := (readAdditive text).rest_suffix
  split at hread
  · rename_i after hfound
    obtain ⟨rfl, rfl⟩ := Prod.mk.inj hread
    -- No sign follows, and since nothing was skipped the text goes on right behind the sum.
    have hskip : Lexeme.skipBlanks (readAdditive text).rest = after := by
      unfold Lexeme.token at hfound
      dsimp only at hfound
      split at hfound
      · exact congrArg Prod.snd hfound
      · cases hfound
    have hafter : after <:+ (readAdditive text).rest := hskip ▸ Lexeme.skipBlanks_suffix _
    obtain ⟨a, he, hs⟩ := ha hn rfl hc (ht.front hafter hsuffix)
    rw [(ht.back hafter hsuffix).skipBlanks (hskip ▸ List.suffix_refl _)] at hskip
    exact ⟨.plain a, he, by rw [← hskip]; exact hs⟩
  · rename_i relation after hfound
    have htoken : after <:+ (readAdditive text).rest := by
      have htoken := Lexeme.token_suffix Relation.vocabulary (readAdditive text).rest
      rw [show (readAdditive text).rest = (readAdditive text).parts.2 from rfl, hfound] at htoken
      exact htoken
    obtain ⟨rfl, rfl⟩ := Prod.mk.inj hread
    have hafter : (readAdditive after).rest <:+ after := (readAdditive after).rest_suffix
    obtain ⟨a, hae, has⟩ := ha hn rfl hc.1 (ht.front (hafter.trans htoken) hsuffix)
    have hback := ht.back (hafter.trans htoken) hsuffix
    obtain ⟨spelling, hmem, hspell⟩ := token_eq_some hfound hback hafter
    have hlength := (htoken.trans hsuffix).length_le
    obtain ⟨b, hbe, hbs⟩ := ha (Nat.le_trans hlength hn) rfl hc.2 (hback.back hafter htoken)
    refine ⟨.compared a ⟨_, hmem⟩ b, by rw [Phrase.expr, hae, hbe]; rfl, ?_⟩
    rw [Phrase.spell, List.append_assoc, List.append_assoc]
    exact has.trans (congrArg (a.spell ++ ·) (hspell.trans (congrArg (ascii spelling ++ ·) hbs)))

theorem closed_sound (hr : Rank.relation.Sound n) (wrap : Expr → Expr)
    (hwrap : ∀ inner, (wrap inner).Clean → inner.Clean) (hn : text.length ≤ n)
    (hread : Reading.closed wrap (readRelation text).parts = (e, rest)) (hc : e.Clean)
    (ht : Tight text rest) :
    ∃ p : Phrase .relation, wrap (p.expr false) = e ∧ text = p.spell ++ byte ')' :: rest := by
  obtain ⟨rfl, hclose⟩ := Reading.closed_eq hread hc
  have hsuffix : byte ')' :: rest <:+ text := hclose ▸ (readRelation text).rest_suffix
  have hfront := ht.front (List.suffix_cons _ rest) hsuffix
  have hread : Rank.relation.read text = ((readRelation text).parts.1, byte ')' :: rest) :=
    Prod.ext rfl hclose
  obtain ⟨p, he, hs⟩ := hr hn hread (hwrap _ hc) hfront
  exact ⟨p, congrArg wrap he, hs⟩

theorem call_sound (hr : Rank.relation.Sound n) (hn : text.length ≤ n + 1)
    (hread : (readCall text).parts = (e, rest)) (hc : e.Clean) (ht : Tight text rest) :
    ∃ p : Phrase .primary, p.expr false = e ∧ text = p.spell ++ rest := by
  rw [parts_readCall rfl] at hread
  split at hread
  · cases hread
    exact hc.elim
  · cases hread
    exact hc.elim
  · rename_i f c after hfound
    have htoken : c :: after <:+ text := by
      have htoken := Lexeme.token_suffix Function.vocabulary text
      rw [hfound] at htoken
      exact htoken
    split at hread
    · rename_i hopen
      subst hopen
      have hafter : rest <:+ after := Reading.suffix_of_closed_eq hread
      have hcons := hafter.trans (List.suffix_cons (byte '(') after)
      obtain ⟨spelling, hmem, hspell⟩ := token_eq_some hfound ht hcons
      have hlength := htoken.length_le
      rw [List.length_cons] at hlength
      obtain ⟨p, he, hs⟩ := closed_sound hr (.call f) (fun _ h => h) (by omega) hread hc
        ((ht.back hcons htoken).back hafter (List.suffix_cons _ after))
      refine ⟨.call f p, he, ?_⟩
      rw [hspell, hs, spelling_of_mem hmem, Phrase.spell, List.append_assoc, List.cons_append,
        List.append_assoc,
        List.singleton_append]
    · cases hread
      exact hc.elim

/-- The digits that a number is read from are those that it is spelled with. -/
theorem digits_takeWhile {c : UInt8} {tail : List UInt8} (hdigit : Byte.isDigit c = true)
    (hzero : c ≠ byte '0') :
    Decimal.digits (Decimal.value ((c :: tail).takeWhile Byte.isDigit)) = (c :: tail).takeWhile
      Byte.isDigit := by
  have htake : (c :: tail).takeWhile Byte.isDigit = c :: tail.takeWhile Byte.isDigit :=
    List.takeWhile_cons_of_pos hdigit
  refine Decimal.digits_value ?_ (fun d hd => List.all_eq_true.1 List.all_takeWhile d hd)
    fun d digits he => ?_
  · rw [htake]
    exact List.cons_ne_nil _ _
  · rw [htake] at he
    rw [← (List.cons.inj he).1]
    exact hzero

theorem primary_sound (hp : Rank.primary.Sound n) (hr : Rank.relation.Sound n) :
    Rank.primary.Sound (n + 1) := by
  intro text rest e hn hread hc ht
  have hrest : rest <:+ Lexeme.skipBlanks text := by
    have hsuffix := readPrimary_suffix text
    rw [show (readPrimary text).parts = (e, rest) from hread] at hsuffix
    exact hsuffix
  have hskip := ht.skipBlanks hrest
  cases text with
  | nil =>
    rw [Rank.read, parts_readPrimary hskip] at hread
    cases hread
    exact hc.elim
  | cons c tail =>
    have hcons := List.suffix_cons c tail
    rw [List.length_cons] at hn
    rw [Rank.read, parts_readPrimary hskip] at hread
    dsimp only at hread
    -- The branches are those of reading; each gives a phrase, or a tree that is not clean.
    split at hread
    · rename_i hminus
      subst hminus
      obtain ⟨rfl, rfl⟩ := Prod.mk.inj hread
      have hsuffix : (readPrimary tail).parts.2 <:+ tail := (readPrimary tail).rest_suffix
      obtain ⟨p, he, hs⟩ := hp (by omega) rfl hc (ht.back hsuffix hcons)
      exact ⟨.negate p, by rw [Phrase.expr, he]; rfl, congrArg (byte '-' :: ·) hs⟩
    split at hread
    · rename_i hminus hzero
      cases hread
      exact ⟨.number 0, rfl, by rw [hzero, Phrase.spell, Decimal.digits_zero]; rfl⟩
    split at hread
    · rename_i hminus hzero hdigit
      cases hread
      refine ⟨.number (Decimal.value ((c :: tail).takeWhile Byte.isDigit)), rfl, ?_⟩
      rw [Phrase.spell, digits_takeWhile hdigit hzero]
      exact List.takeWhile_append_dropWhile.symm
    split at hread
    · rename_i v hletter
      cases hread
      exact ⟨.var v, rfl, by rw [Phrase.spell, letter_of_letter? hletter]; rfl⟩
    split at hread
    · exact call_sound hr hn hread hc ht
    split at hread
    · rename_i hopen
      subst hopen
      have hafter : rest <:+ tail := Reading.suffix_of_closed_eq hread
      obtain ⟨p, he, hs⟩ := closed_sound hr .group (fun _ h => h) (by omega) hread hc
        (ht.back hafter hcons)
      refine ⟨.group p, he, ?_⟩
      rw [hs, Phrase.spell, List.cons_append, List.append_assoc, List.singleton_append]
    · cases hread
      exact hc.elim

theorem primary_sound_zero : Rank.primary.Sound 0 := by
  intro text rest e hn hread hc ht
  obtain rfl := List.length_eq_zero_iff.1 (Nat.le_zero.1 hn)
  rw [Rank.read, parts_readPrimary (show Lexeme.skipBlanks [] = [] from rfl)] at hread
  cases hread
  exact hc.elim

/-- By induction on the length of the text: what is read inside a primary is shorter. -/
theorem sound_up_to (n : Nat) : Rank.primary.Sound n ∧ Rank.relation.Sound n := by
  have hrelation : ∀ {k}, Rank.primary.Sound k → Rank.relation.Sound k :=
    fun hp => relation_sound (additive_sound (term_sound hp))
  induction n with
  | zero => exact ⟨primary_sound_zero, hrelation primary_sound_zero⟩
  | succ n ih =>
    have hp := primary_sound ih.1 ih.2
    exact ⟨hp, hrelation hp⟩

/-- A clean tree read from a relation without a blank is the tree of a phrase. -/
theorem exists_phrase (hread : (readRelation text).parts = (e, rest)) (hc : e.Clean)
    (ht : Tight text rest) :
    ∃ p : Phrase .relation, p.expr false = e ∧ text = p.spell ++ rest :=
  (sound_up_to text.length).2 (Nat.le_refl _) hread hc ht

end

end LineBasic
