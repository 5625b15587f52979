import LineBasic.Proofs.Session.Numbered

namespace LineBasic

namespace Listing

def Typable (l : Listing) : Prop :=
  ∀ line ∈ l.lines, line.number.toNat < 65530

theorem typable_empty : empty.Typable :=
  fun _ h => absurd h List.not_mem_nil

end Listing

theorem Session.Becomes.typable {l l' : Listing} (h : Session.Becomes l l') (hl : l.Typable) :
    l'.Typable := by
  cases h with
  | same => exact hl
  | emptied => exact Listing.typable_empty
  | entered top line =>
    exact Listing.forall_enter hl fun h => (Lexeme.lineNumber_lt _).resolve_right h.number_ne_max

theorem History.exists_typable {σ : Type} [Host σ] {settings : Settings} {host : σ}
    {threshold : Option Severity} {past : List (Moment σ)} {M : Moment σ}
    (h : History (Session.start settings host threshold) past M) :
    ∃ l frames, M.Ready l frames ∧ l.Typable := by
  -- Lines come into a session only where a typed line is entered.
  induction h with
  | start => exact ⟨_, _, Session.sane_start settings host threshold, Listing.typable_empty⟩
  | next _ hn ih =>
    obtain ⟨l, frames, hready, hl⟩ := ih
    obtain ⟨l', frames', hready', hfollows, -⟩ := hn.ready hready
    exact ⟨l', frames', hready', hfollows.becomes.typable hl⟩

section
variable {l : Listing} {frames : List Frame} {line : Line}

/-- Setting a stored line to no text takes it out if there is room for one more record, and
otherwise it is refused as a line that does not fit. -/
theorem Memory.upsert_nil {m : Memory} (h : m.Sound l frames) (hl : line ∈ l.lines) :
    if 8 ≤ m.variablesBegin - m.programEnd then
      ∃ edit m', upsert line.number [] m = .ok edit m' ∧
      m'.lines = .ok (l.lines.filter (·.number ≠ line.number))
    else upsert line.number [] m = .error (.error (.exhausted .lineDoesNotFit)) m := by
  obtain ⟨hzero, hmax, -, -⟩ := l.storable line hl
  have hreserve := h.layout.reserve
  split
  case isTrue hroom =>
    have haccepts : m.Accepts line.number [] :=
      ⟨⟨hzero, hmax, List.not_mem_nil, Nat.zero_le _⟩, by rw [List.length_nil]; omega⟩
    obtain ⟨edit, m', hrun, hsound, -⟩ := upsert_merged h haccepts
    exact ⟨edit, m', hrun, by rw [lines_eq hsound.layout hsound.holds, l.lines_put_nil]⟩
  case isFalse hfull =>
    refine upsert_full h.layout (not_or.2 ⟨hzero, hmax⟩) List.not_mem_nil (Or.inr ?_)
    rw [List.length_nil]
    omega

/-- The number of a stored line takes the line out if there is room for its digits, and otherwise
the line that the digits before the cut denote, if there is one. -/
theorem Session.enter_number {σ : Type} [Host σ] {s : Session σ}
    (hs : s.interpreter.memory.Sane l frames) (hl : line ∈ l.lines) (hn : line.number.toNat < 65530)
    {typed : List UInt8} (ht : typed = Decimal.digits line.number.toNat) (steps : Nat) :
    let free := s.interpreter.memory.variablesBegin - s.interpreter.memory.programEnd
    if typed.length + 4 ≤ free then
      Leaves (l.lines.filter (·.number ≠ line.number)) (enter steps typed s)
    else
      Decimal.value (typed.take (free - 4)) < line.number.toNat ∧
        Leaves (l.lines.filter (·.number.toNat ≠ Decimal.value (typed.take (free - 4))))
          (enter steps typed s) := by
  intro free
  have hdigits : ∀ d ∈ typed, Byte.isDigit d = true := fun d hd =>
    Decimal.isDigit_of_mem_digits (ht ▸ hd)
  have hvalue : Decimal.value typed = line.number.toNat := ht ▸ Decimal.value_digits _
  have hlength : typed.length ≤ 5 := ht ▸ Decimal.length_digits_le (by omega)
  have hcut : s.interpreter.memory.cutLine typed = typed.take (min (free - 4) 252) := by
    rw [Memory.cutLine_eq _ fun b hb => ?_, Memory.entryRoom_eq hs.layout]
    exact ⟨Byte.ne_of_isDigit (hdigits b hb) rfl, Byte.ne_of_isDigit (hdigits b hb) rfl⟩
  have hreserve := hs.layout.reserve
  -- Five digits are never cut for the longest line, only for the room in the gap.
  split
  case isTrue hroom =>
    rw [List.take_of_length_le (by omega)] at hcut
    have h := enter_digits hs steps hdigits hcut (by omega)
    rwa [hvalue, Listing.filter_toNat_ne _ line.number.toNat_lt,
      show line.number.toNat.toUInt16 = line.number from UInt16.ofNat_toNat] at h
  case isFalse hroom =>
    have hshort : free - 4 < typed.length := by omega
    have hless := Decimal.ten_mul_value_take_le hshort
    have hpos : 0 < line.number.toNat :=
      Nat.pos_of_ne_zero fun hzero => (l.storable line hl).number_ne_zero (UInt16.toNat_inj.1 hzero)
    rw [Nat.min_eq_left (by omega)] at hcut
    exact ⟨by omega, enter_digits hs steps (fun d hd => hdigits d (List.mem_of_mem_take hd))
      hcut (by omega)⟩

end

/-- A stored line can be taken out as long as there is room. Setting it to no text asks for eight
bytes, though it takes none, and typing its number for four bytes and the digits. Where there are
fewer, `upsert` refuses the line, and the digits that there is room for are taken for another
number. -/
theorem deletion_needs_room {σ : Type} [Host σ] (settings : Settings) (host : σ)
    (threshold : Option Severity) :
    (∀ m, Memory.Upserted (.create settings.ramSize settings.stackFrames) m →
      ∃ before free, m.lines = .ok before ∧ m.free = .ok free ∧ ∀ line ∈ before,
        if 8 ≤ free then
          ∃ edit m', Memory.upsert line.number [] m = .ok edit m' ∧
            m'.lines = .ok (before.filter (·.number ≠ line.number))
        else Memory.upsert line.number [] m = .error (.error (.exhausted .lineDoesNotFit)) m) ∧
    ∀ past s, History (Session.start settings host threshold) past (.idle s) →
      ∃ before free, s.interpreter.memory.lines = .ok before ∧
      s.interpreter.memory.free = .ok free ∧
        ∀ line ∈ before, ∀ typed, typed = Decimal.digits line.number.toNat → ∀ steps,
          if typed.length + 4 ≤ free then
            Session.Leaves (before.filter (·.number ≠ line.number)) (Session.enter steps typed s)
          else
            Decimal.value (typed.take (free - 4)) < line.number.toNat ∧
              Session.Leaves
                (before.filter (·.number.toNat ≠ Decimal.value (typed.take (free - 4))))
                (Session.enter steps typed s) := by
  refine ⟨fun m h => ?_, fun past s h => ?_⟩
  · obtain ⟨l, frames, hsound⟩ := h.exists_sound
    exact ⟨l.lines, _, Memory.lines_eq hsound.layout hsound.holds, hsound.layout.free_eq,
      fun line hl =>
      Memory.upsert_nil hsound hl⟩
  · obtain ⟨l, frames, hready, htypable⟩ := h.exists_typable
    have hs : s.interpreter.memory.Sane l frames := hready
    exact ⟨l.lines, _, Memory.lines_eq hs.layout hs.holds, hs.layout.free_eq,
      fun line hl typed ht steps =>
      Session.enter_number hs hl (htypable line hl) ht steps⟩

/-- What `upsert` has left of a small buffer beside a line 1 as long as a line can be, a line 2
takes. -/
theorem Memory.exists_nearly_full (text : List UInt8) (hne : text ≠ [])
    (hlength : text.length ≤ 197) (hmarker : Byte.marker ∉ text) :
    ∃ m l frames, Upserted (create Settings.small.ramSize Settings.small.stackFrames) m ∧
    m.Sound l frames ∧
      m.variablesBegin - m.programEnd = 201 - text.length ∧
      l.lines = [⟨1, longText⟩, ⟨2, text⟩] := by
  have hv : (create Settings.small.ramSize Settings.small.stackFrames).variablesBegin =
      460 := by decide
  have hlong : longText.length = 251 := List.length_replicate
  have hfirst : Storable 1 longText := by decide +kernel
  have hsecond : Storable 2 text := ⟨by decide, by decide, hmarker, by omega⟩
  obtain ⟨m, l, frames, hm, hsound, hv', hlines⟩ := Upserted.exists_two Settings.small.ramSize
    Settings.small.stackFrames hfirst hsecond (by decide +kernel) hne (by omega)
  refine ⟨m, l, frames, hm, hsound, ?_, hlines⟩
  rw [hsound.holds.programEnd_eq, hlines, hv', hv, extent_two]
  omega

/-- A short line beside a long one can be taken out. -/
theorem deletion_of_short_line :
    (∃ m, Memory.Upserted (.create Settings.small.ramSize Settings.small.stackFrames) m ∧
      m.lines = .ok [⟨1, longText⟩, ⟨2, ascii "END"⟩] ∧
      ∃ edit m', Memory.upsert 2 [] m = .ok edit m' ∧ m'.lines = .ok [⟨1, longText⟩]) ∧
    ∃ past, ∃ s : Session Script, History (Session.start .small {} none) past (.idle s) ∧
      s.interpreter.memory.lines = .ok [⟨1, longText⟩, ⟨2, ascii "END"⟩] ∧
      ∀ steps, Session.Leaves [⟨1, longText⟩] (Session.enter steps (ascii "2") s) := by
  obtain ⟨hprogram, hsession⟩ := deletion_needs_room .small ({} : Script) none
  have hmem : (⟨2, ascii "END"⟩ : Line) ∈ [(⟨1, longText⟩ : Line), ⟨2, ascii "END"⟩] :=
    List.mem_cons_of_mem _ (List.mem_singleton_self _)
  constructor
  · obtain ⟨m, l, frames, hm, hsound, hroom, hlines⟩ :=
      Memory.exists_nearly_full (ascii "END") (by decide)
      (by decide) (by decide)
    obtain ⟨before, free, hbefore, hfree, hdelete⟩ := hprogram m hm
    rw [Memory.lines_eq hsound.layout hsound.holds] at hbefore
    cases hbefore
    rw [hsound.layout.free_eq, hroom] at hfree
    cases hfree
    rw [hlines] at hdelete
    have h := hdelete ⟨2, ascii "END"⟩ hmem
    rw [if_pos (by decide)] at h
    exact ⟨m, hm, hlines ▸ Memory.lines_eq hsound.layout hsound.holds, h⟩
  · obtain ⟨past, s, l, frames, hpast, hs, hroom, hlines⟩ :=
      History.exists_nearly_full (ascii "END") (by decide)
      (by decide) (by decide) (by decide) (by decide)
    obtain ⟨before, free, hbefore, hfree, hdelete⟩ := hsession past s hpast
    rw [Memory.lines_eq hs.layout hs.holds] at hbefore
    cases hbefore
    rw [hs.layout.free_eq, hroom] at hfree
    cases hfree
    rw [hlines] at hdelete
    refine ⟨past, s, hpast, hlines ▸ Memory.lines_eq hs.layout hs.holds, fun steps => ?_⟩
    have h := hdelete ⟨2, ascii "END"⟩ hmem (ascii "2") (by decide +kernel) steps
    rw [if_pos (by decide)] at h
    exact h

/-- In a full buffer neither way takes a line out: `upsert` refuses it, and no digit of its number
is read. -/
theorem deletion_refused :
    (∃ m, Memory.Upserted (.create Settings.small.ramSize Settings.small.stackFrames) m ∧
      m.lines = .ok [⟨1, longText⟩, ⟨2, List.replicate 197 (byte 'B')⟩] ∧
      Memory.upsert 1 [] m = .error (.error (.exhausted .lineDoesNotFit)) m) ∧
    ∃ past, ∃ s : Session Script, History (Session.start .small {} none) past (.idle s) ∧
      s.interpreter.memory.lines = .ok [⟨1, longText⟩, ⟨2, List.replicate 197 (byte 'B')⟩] ∧
      ∀ steps, Session.Leaves [⟨1, longText⟩, ⟨2, List.replicate 197 (byte 'B')⟩]
        (Session.enter steps (ascii "1") s) := by
  have hlength : (List.replicate 197 (byte 'B')).length ≤ 197 := by
    rw [List.length_replicate]
  constructor
  · obtain ⟨m, l, frames, hm, hsound, hroom, hlines⟩ :=
      Memory.exists_nearly_full _ (by decide) hlength
      (by decide)
    refine ⟨m, hm, hlines ▸ Memory.lines_eq hsound.layout hsound.holds, ?_⟩
    have hline : (⟨1, longText⟩ : Line) ∈ l.lines := hlines ▸ List.mem_cons_self
    have h := Memory.upsert_nil hsound hline
    rwa [hroom, List.length_replicate, if_neg (by decide)] at h
  · obtain ⟨past, s, l, frames, hpast, hs, hroom, hlines⟩ :=
      History.exists_nearly_full _ (by decide) hlength
      (by decide +kernel) (by decide +kernel) (by decide +kernel)
    have hcut : s.interpreter.memory.cutLine (ascii "1") = [] := by
      rw [Memory.cutLine_eq _ (by decide), Memory.entryRoom_eq hs.layout, hroom,
        List.length_replicate]
      decide
    refine ⟨past, s, hpast, hlines ▸ Memory.lines_eq hs.layout hs.holds, fun steps => ?_⟩
    have h := Session.enter_digits hs steps (fun _ hd => absurd hd List.not_mem_nil)
      hcut (by decide)
    rw [hlines] at h
    exact h

end LineBasic
