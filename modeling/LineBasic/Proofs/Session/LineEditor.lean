import LineBasic.Proofs.Session.Typing

namespace LineBasic

/-- The byte ends a line when it is typed. -/
def Byte.EndsLine (b : UInt8) : Prop :=
  b = carriageReturn ∨ b = marker

instance (b : UInt8) : Decidable (Byte.EndsLine b) :=
  inferInstanceAs (Decidable (_ ∨ _))

def Byte.Erases (b : UInt8) : Prop :=
  b = backspace ∨ b = delete

instance (b : UInt8) : Decidable (Byte.Erases b) :=
  inferInstanceAs (Decidable (_ ∨ _))

/-- Bytes that are typed for one line, up to the one that ends it. -/
structure Keystrokes where
  keys : List UInt8
  last : UInt8
  unended : ∀ b ∈ keys, ¬ Byte.EndsLine b
  ends : Byte.EndsLine last

def Keystrokes.bytes (strokes : Keystrokes) : List UInt8 :=
  strokes.keys ++ [strokes.last]

theorem Byte.IsText.not_endsLine {b : UInt8} (h : IsText b) : ¬ EndsLine b :=
  h.unedited.1

theorem Byte.IsText.not_erases {b : UInt8} (h : IsText b) : ¬ Erases b :=
  h.unedited.2.1

theorem Byte.IsText.ne {b c : UInt8} (h : IsText b) (hc : ¬ IsText c) : b ≠ c :=
  fun he => hc (he ▸ h)

namespace Editor
variable {room : Nat} {line keys : List UInt8} {b : UInt8}

def strike (room : Nat) (line : List UInt8) (b : UInt8) : List UInt8 :=
  if Byte.Erases b then line.dropLast
  else if Byte.IsText b ∧ line.length < room then line ++ [b]
  else line

/-- The line after these bytes have been typed. -/
def edit (room : Nat) (line keys : List UInt8) : List UInt8 :=
  keys.foldl (strike room) line

/-- What is written for a typed byte: the byte, or what erases one. The bell sounds for a byte that
has no room, even if nothing is echoed. -/
def answer (echo : Bool) (room : Nat) (line : List UInt8) (b : UInt8) : List UInt8 :=
  if Byte.Erases b then
    if echo ∧ line ≠ [] then [Byte.backspace, Byte.blank, Byte.backspace] else []
  else if Byte.IsText b then
    if line.length < room then if echo then [b] else [] else [Byte.bell]
  else []

def answers (echo : Bool) (room : Nat) (line : List UInt8) : List UInt8 → List UInt8
  | [] => []
  | b :: keys => answer echo room line b ++ answers echo room (strike room line b) keys

def echoed (echo : Bool) (room : Nat) (keys : List UInt8) : List UInt8 :=
  answers echo room [] keys ++ if echo then [Byte.marker] else []

theorem edit_cons (room : Nat) (line : List UInt8) (b : UInt8) (keys : List UInt8) :
    edit room line (b :: keys) = edit room (strike room line b) keys :=
  rfl

theorem strike_of_erases (h : Byte.Erases b) : strike room line b = line.dropLast :=
  if_pos h

theorem strike_of_room (h : Byte.IsText b) (hroom : line.length < room) :
    strike room line b = line ++ [b] :=
  (if_neg h.not_erases).trans (if_pos ⟨h, hroom⟩)

theorem strike_of_full (h : Byte.IsText b) (hfull : room ≤ line.length) :
    strike room line b = line :=
  (if_neg h.not_erases).trans (if_neg fun hroom => Nat.not_lt.2 hfull hroom.2)

theorem strike_of_control (herase : ¬ Byte.Erases b) (htext : ¬ Byte.IsText b) :
    strike room line b = line :=
  (if_neg herase).trans (if_neg fun h => htext h.1)

theorem answer_of_erases (echo : Bool) (h : Byte.Erases b) :
    answer echo room line b = if echo ∧ line ≠ [] then [Byte.backspace, Byte.blank,
      Byte.backspace] else [] :=
  if_pos h

theorem answer_of_room (echo : Bool) (h : Byte.IsText b) (hroom : line.length < room) :
    answer echo room line b = if echo then [b] else [] := by
  rw [answer, if_neg h.not_erases, if_pos h, if_pos hroom]

theorem answer_of_full (echo : Bool) (h : Byte.IsText b) (hfull : room ≤ line.length) :
    answer echo room line b = [Byte.bell] := by
  rw [answer, if_neg h.not_erases, if_pos h, if_neg (Nat.not_lt.2 hfull)]

theorem answer_of_control (echo : Bool) (herase : ¬ Byte.Erases b) (htext : ¬ Byte.IsText b) :
    answer echo room line b = [] := by
  rw [answer, if_neg herase, if_neg htext]

theorem length_strike_le (h : line.length ≤ room) : (strike room line b).length ≤ room := by
  unfold strike
  split
  · rw [List.length_dropLast]
    omega
  · split
    · rename_i hroom
      rw [List.length_append, List.length_singleton]
      omega
    · exact h

theorem length_edit_le (h : line.length ≤ room) (keys : List UInt8) :
    (edit room line keys).length ≤ room := by
  induction keys generalizing line with
  | nil => exact h
  | cons b keys ih => exact ih (length_strike_le h)

theorem isText_strike (h : ∀ c ∈ line, Byte.IsText c) :
    ∀ c ∈ strike room line b, Byte.IsText c := by
  intro c hc
  unfold strike at hc
  split at hc
  · exact h c ((List.dropLast_sublist line).subset hc)
  · split at hc
    · rename_i hroom
      obtain hc | hc := List.mem_append.1 hc
      · exact h c hc
      · exact List.mem_singleton.1 hc ▸ hroom.1
    · exact h c hc

theorem isText_edit (h : ∀ c ∈ line, Byte.IsText c) (keys : List UInt8) :
    ∀ c ∈ edit room line keys, Byte.IsText c := by
  induction keys generalizing line with
  | nil => exact h
  | cons b keys ih => exact ih (isText_strike h)

theorem marker_notMem_edit (room : Nat) (keys : List UInt8) : Byte.marker ∉ edit room [] keys :=
  fun h => absurd (isText_edit (fun _ hc => absurd hc List.not_mem_nil) keys _ h) (by decide)

/-- Of a text as much is kept as there is room for. -/
theorem edit_of_text (hkeys : ∀ b ∈ keys, Byte.IsText b) (line : List UInt8) :
    edit room line keys = line ++ keys.take (room - line.length) := by
  induction keys generalizing line with
  | nil => rw [List.take_nil, List.append_nil]; rfl
  | cons b keys ih =>
    obtain ⟨hb, hkeys⟩ := List.forall_mem_cons.1 hkeys
    rw [edit_cons, ih hkeys]
    by_cases hroom : line.length < room
    · have hleft : room - line.length = room - (line ++ [b]).length + 1 := by
        rw [List.length_append, List.length_singleton]
        omega
      rw [strike_of_room hb hroom, hleft, List.take_succ_cons, List.append_assoc,
        List.singleton_append]
    · have hfull : room ≤ line.length := Nat.not_lt.1 hroom
      rw [strike_of_full hb hfull, Nat.sub_eq_zero_of_le hfull, List.take_zero, List.take_zero]

end Editor

namespace Terminal

/-- What a terminal shows after some output: a byte is appended, a backspace that is followed by a
blank and another backspace erases the last byte, and the bell shows nothing. -/
def render (screen : List UInt8) : List UInt8 → List UInt8
  | 8 :: 32 :: 8 :: output => render screen.dropLast output
  | 7 :: output => render screen output
  | b :: output => render (screen ++ [b]) output
  | [] => screen

theorem render_nil (screen : List UInt8) : render screen [] = screen := by
  rw [render]

theorem render_erase (screen output : List UInt8) :
    render screen (Byte.backspace :: Byte.blank :: Byte.backspace :: output) =
      render screen.dropLast output := by
  simp only [Byte.backspace, Byte.blank]
  rw [render]

theorem render_bell (screen output : List UInt8) :
    render screen (Byte.bell :: output) = render screen output := by
  simp only [Byte.bell]
  rw [render]

theorem render_cons {b : UInt8} (hbell : b ≠ Byte.bell) (hback : b ≠ Byte.backspace)
    (screen output : List UInt8) :
    render screen (b :: output) = render (screen ++ [b]) output := by
  rw [render]
  · exact fun _ he _ => hback he
  · exact fun he => hbell he

open Editor in
/-- What is echoed for typed bytes shows the line that they leave, after whatever was shown before
it. -/
theorem render_answers (room : Nat) (screen line keys output : List UInt8) :
    render (screen ++ line) (answers true room line keys ++ output) = render
      (screen ++ edit room line keys) output := by
  induction keys generalizing line with
  | nil => rfl
  | cons b keys ih =>
    rw [answers, edit_cons, List.append_assoc, ← ih]
    -- By what the key does: it takes a character off, adds one or rings, or does nothing.
    by_cases herase : Byte.Erases b
    · rw [strike_of_erases herase, answer_of_erases true herase]
      by_cases hnil : line = []
      · rw [if_neg fun h => h.2 hnil, hnil]
        rfl
      · rw [if_pos ⟨rfl, hnil⟩, ← List.dropLast_append_of_ne_nil hnil]
        exact render_erase _ _
    by_cases htext : Byte.IsText b
    · by_cases hroom : line.length < room
      · rw [answer_of_room true htext hroom, strike_of_room htext hroom, ← List.append_assoc screen]
        exact render_cons (htext.ne (by decide)) (htext.ne (by decide)) _ _
      · have hfull := Nat.not_lt.1 hroom
        rw [answer_of_full true htext hfull, strike_of_full htext hfull]
        exact render_bell _ _
    · rw [answer_of_control true herase htext, strike_of_control herase htext]
      rfl

/-- The terminal shows the sign that asks for a line, the line and its end. -/
theorem render_echoed (purpose : Purpose) (room : Nat) (keys : List UInt8) :
    render [] (purpose.sign :: Editor.echoed true room keys) =
      purpose.sign :: (Editor.edit room [] keys ++ [Byte.marker]) := by
  have hsign : purpose.sign ≠ Byte.bell ∧ purpose.sign ≠ Byte.backspace := by
    cases purpose with
    | command => exact ⟨by decide, by decide⟩
    | reply => exact ⟨show byte '?' ≠ Byte.bell by decide, show byte '?' ≠ Byte.backspace by decide⟩
  have hshown := render_answers room [purpose.sign] [] keys [Byte.marker]
  rw [render_cons hsign.1 hsign.2]
  refine hshown.trans ?_
  rw [render_cons (by decide) (by decide), render_nil, List.append_assoc, List.singleton_append]

end Terminal
end LineBasic
