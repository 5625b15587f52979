import LineBasic.Proofs.Text

namespace LineBasic
variable {quote : UInt8} {text chars : List UInt8}

def Unquoted (text : List UInt8) : Prop :=
  ∀ b ∈ text, Byte.isQuote b = false

instance : Decidable (Unquoted text) :=
  inferInstanceAs (Decidable (∀ b ∈ text, Byte.isQuote b = false))

theorem Unquoted.append {back : List UInt8} (h : Unquoted text) (h' : Unquoted back) :
    Unquoted (text ++ back) :=
  List.forall_mem_append.2 ⟨h, h'⟩

namespace Case

/-- The quote that is open behind a text, if one is, where `quote` is open before it. -/
def openAfter (quote : Option UInt8) : List UInt8 → Option UInt8
  | [] => quote
  | b :: rest =>
    match quote with
    | some q => openAfter (if b = q then none else some q) rest
    | none => openAfter (if Byte.isQuote b then some b else none) rest

theorem openAfter_append (quote : Option UInt8) (front back : List UInt8) :
    openAfter quote (front ++ back) = openAfter (openAfter quote front) back := by
  induction front generalizing quote with
  | nil => rfl
  | cons b front ih =>
    cases quote with
    | some q => exact ih _
    | none => exact ih _

theorem openAfter_of_unquoted (h : Unquoted text) : openAfter none text = none := by
  induction text with
  | nil => rfl
  | cons b rest ih =>
    obtain ⟨hb, hrest⟩ := List.forall_mem_cons.1 h
    rw [openAfter, hb]
    exact ih hrest

section
variable (hc : quote ∉ chars)
include hc

theorem openAfter_closed : openAfter (some quote) (chars ++ [quote]) = none := by
  induction chars with
  | nil => simp [openAfter]
  | cons c chars ih =>
    obtain ⟨hne, hchars⟩ := not_or.1 (mt List.mem_cons.2 hc)
    rw [List.cons_append, openAfter, if_neg (Ne.symm hne)]
    exact ih hchars

variable (hq : Byte.isQuote quote = true)
include hq

theorem openAfter_literal : openAfter none (quote :: chars ++ [quote]) = none := by
  rw [List.cons_append, openAfter, if_pos hq]
  exact openAfter_closed hc

end
end Case

/-- What stands between a text and the rest of it that has no quote. -/
def Passes (text rest : List UInt8) : Prop :=
  ∃ passed, text = passed ++ rest ∧ Unquoted passed

namespace Passes
variable {rest after : List UInt8}

theorem refl (text : List UInt8) : Passes text text :=
  ⟨[], rfl, fun _ h => absurd h List.not_mem_nil⟩

theorem trans (h : Passes text rest) (h' : Passes rest after) : Passes text after := by
  obtain ⟨passed, rfl, hp⟩ := h
  obtain ⟨more, rfl, hm⟩ := h'
  exact ⟨passed ++ more, (List.append_assoc _ _ _).symm, hp.append hm⟩

theorem cons {b : UInt8} (hb : Byte.isQuote b = false) (rest : List UInt8) :
    Passes (b :: rest) rest :=
  ⟨[b], rfl, fun _ h => List.mem_singleton.1 h ▸ hb⟩

theorem suffix (h : Passes text rest) : rest <:+ text := by
  obtain ⟨passed, rfl, -⟩ := h
  exact List.suffix_append passed rest

/-- Bytes are dropped as long as they are of a kind that has no quote. -/
theorem dropWhile {p : UInt8 → Bool} (hp : ∀ b, p b = true → Byte.isQuote b = false)
    (text : List UInt8) :
    Passes text (text.dropWhile p) :=
  ⟨text.takeWhile p, List.takeWhile_append_dropWhile.symm,
    fun _ hb => hp _ (List.mem_takeWhile_imp hb)⟩

theorem skipBlanks (text : List UInt8) : Passes text (Lexeme.skipBlanks text) :=
  dropWhile (fun _ hb => Byte.isQuote_of_isBlank hb) text

end Passes
end LineBasic
