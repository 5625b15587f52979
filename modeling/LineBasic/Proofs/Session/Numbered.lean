import LineBasic.Proofs.Store

namespace LineBasic

section
variable {ds rest : List UInt8} (hd : ∀ d ∈ ds, Byte.isDigit d = true)
include hd

/-- Digits that begin a typed line are its number, or it has the largest number where they denote a
larger one than can be read. -/
theorem entryNumber_append (hr : rest.head?.any Byte.isDigit = false) (hne : ds ≠ [] ∨ rest = []) :
    (Decimal.value ds < 65530 → entryNumber (ds ++ rest) = (Decimal.value ds).toUInt16) ∧
      (65530 ≤ Decimal.value ds → entryNumber (ds ++ rest) = 65535) := by
  have hne' : ds ≠ [] ∨ Case.fold rest = [] := hne.imp_right (congrArg Case.fold)
  obtain ⟨hsmall, hlarge⟩ := Lexeme.lineNumber_append hd
    ((Case.head?_any_isDigit_fold rest).trans hr) hne'
  unfold entryNumber
  rw [Case.fold_append_of_isDigit hd]
  exact ⟨fun h => by rw [hsmall h], hlarge⟩

theorem entry_digits (hv : Decimal.value ds < 65530) :
    entryNumber ds = (Decimal.value ds).toUInt16 ∧ entryText ds = [] := by
  have hnone : ([] : List UInt8).head?.any Byte.isDigit = false := rfl
  obtain ⟨hsmall, -⟩ := Lexeme.lineNumber_append hd hnone (Or.inr rfl)
  have hfold := Case.fold_append_of_isDigit hd []
  rw [List.append_nil, show Case.fold [] = [] from rfl, List.append_nil] at hfold
  rw [List.append_nil] at hsmall
  unfold entryNumber entryText
  rw [hfold, hsmall hv]
  exact ⟨rfl, rfl⟩

end

namespace Listing
variable {l : Listing} {n : Nat}

theorem toNat_ne_iff {number : UInt16} (hn : n < 65536) :
    number.toNat ≠ n ↔ number ≠ n.toUInt16 := by
  have hnat : n.toUInt16.toNat = n := UInt16.toNat_ofNat_of_lt' hn
  rw [Ne, Ne, ← UInt16.toNat_inj, hnat]

theorem filter_toNat_ne (lines : List Line) (hn : n < 65536) :
    lines.filter (·.number.toNat ≠ n) = lines.filter (·.number ≠ n.toUInt16) :=
  List.filter_congr fun _ _ => decide_eq_decide.2 (toNat_ne_iff hn)

end Listing

namespace Session
variable {σ : Type} [Host σ] {s : Session σ} {l : Listing} {frames : List Frame}
  {bytes ds rest : List UInt8}

/-- However a call ends, these are the lines that it leaves. -/
def Leaves (lines : List Line) (r : EStateM.Result Halt (Session σ) Phase) : Prop :=
  Ends r (fun _ s => s.interpreter.memory.lines = .ok lines) fun _ s =>
    s.interpreter.memory.lines = .ok lines

/-- A direct line that begins at its marker leads back to the prompt. -/
theorem drive_blank (hend : s.interpreter.cursor.atEndOfLine = true) (steps : Nat) :
    Ends (drive Phase.awaitsCommand steps .direct s) (fun _ s' => s' = s) fun _ _ => False := by
  have hstep : step .direct s = .ok .prompt s := by
    show EStateM.Result.ok (if s.interpreter.cursor.atEndOfLine = true then Phase.prompt else .poll)
      s = _
    rw [if_pos hend]
  cases steps with
  | zero => exact rfl
  | succ steps =>
    refine drive_succ (fun hrest => absurd hrest Bool.false_ne_true) fun _ => Ends.of_ok hstep ?_
    cases steps with
    | zero => exact rfl
    | succ steps => exact rfl

/-- A call is over when its line has been stored or refused and another one is wanted. -/
theorem enter_of_prompt {s' : Session σ} (h : submit bytes s = .ok .prompt s') (steps : Nat) :
    enter steps bytes s = .ok .prompt s' := by
  rw [enter, bind_of_ok h]
  cases steps with
  | zero => rfl
  | succ steps => rfl

/-- A line with no number and no text changes nothing but the gap. -/
theorem enter_blank (hs : s.interpreter.memory.Sane l frames) (steps : Nat)
    (hn : entryNumber (s.interpreter.memory.cutLine bytes) = 0)
    (ht : entryText (s.interpreter.memory.cutLine bytes) = []) :
    Ends (enter steps bytes s) (fun _ s' => s'.interpreter.memory.Sound l frames) fun _ _ =>
    False := by
  have hm := hs.layout
  have htyped := Memory.typed_placed bytes hm
  have hsound := hs.toSound.onlyGap (Memory.onlyGap_placed bytes hm)
  have htaken := hsound.onlyGap (htyped.onlyGap_taken hsound.layout)
  have hend := htyped.atEndOfLine_taken hsound.layout ht
  refine Ends.after_ok ((submit_eq bytes hm).trans (accept_direct hsound htyped hn)) ?_
  refine (drive_blank ?_ steps).mono (fun _ _ h => ?_) fun _ _ h => h
  · exact hend
  · rw [h]
    exact htaken

/-- A numbered line leaves the program that takes it, or refuses it. -/
theorem enter_leaves (hs : s.interpreter.memory.Sane l frames) (steps : Nat)
    (hn : entryNumber (s.interpreter.memory.cutLine bytes) ≠ 0) :
    Leaves (entered l s.interpreter.memory.variablesBegin
      (s.interpreter.memory.cutLine bytes)).lines
      (enter steps bytes s) :=
  (enter_sound hs steps hn).mono (fun _ _ ⟨_, h⟩ => Memory.lines_eq h.layout h.holds)
    fun _ _ ⟨_, h⟩ => Memory.lines_eq h.layout h.holds

section
variable (hs : s.interpreter.memory.Sane l frames) (steps : Nat)
  (hd : ∀ d ∈ ds, Byte.isDigit d = true)
include hs hd

/-- A line of which only digits remain when it is cut deletes the line that they denote. -/
theorem enter_digits (hcut : s.interpreter.memory.cutLine bytes = ds)
    (hv : Decimal.value ds < 65530) :
    Leaves (l.lines.filter (·.number.toNat ≠ Decimal.value ds)) (enter steps bytes s) := by
  have hnumber : entryNumber (s.interpreter.memory.cutLine bytes) = (Decimal.value ds).toUInt16 :=
    hcut ▸ (entry_digits hd hv).1
  have htext : entryText (s.interpreter.memory.cutLine bytes) = [] := hcut ▸ (entry_digits hd hv).2
  have hnat : (Decimal.value ds).toUInt16.toNat = Decimal.value ds :=
    UInt16.toNat_ofNat_of_lt' (by show _ < 65536; omega)
  rw [Listing.filter_toNat_ne l.lines (show Decimal.value ds < 65536 by omega)]
  by_cases hzero : (Decimal.value ds).toUInt16 = 0
  · -- No line has the number 0.
    have hall : l.lines.filter (·.number ≠ (Decimal.value ds).toUInt16) = l.lines :=
      List.filter_eq_self.2 fun line hl => decide_eq_true
        (hzero ▸ (l.storable line hl).number_ne_zero)
    rw [hall]
    exact (enter_blank hs steps (hnumber.trans hzero) htext).mono
      (fun _ _ h => Memory.lines_eq h.layout h.holds) fun _ _ h => absurd h id
  · have hmax : (Decimal.value ds).toUInt16 ≠ 65535 := by
      intro he
      rw [he] at hnat
      have : (65535 : UInt16).toNat = 65535 := rfl
      omega
    have hstorable : Storable (Decimal.value ds).toUInt16 [] :=
      ⟨hzero, hmax, List.not_mem_nil, Nat.zero_le _⟩
    have hfit : l.Fits s.interpreter.memory.variablesBegin (Decimal.value ds).toUInt16 [] := by
      have := hs.layout.reserve
      exact l.fits_nil _ (by rw [← hs.holds.programEnd_eq]; omega)
    have hentered : entered l s.interpreter.memory.variablesBegin
      (s.interpreter.memory.cutLine bytes) =
        l.put _ [] hstorable := by
      rw [entered, hnumber, htext, Listing.enter_of_fits hstorable hfit]
    have hleaves := enter_leaves hs steps (hnumber.trans_ne hzero)
    rwa [hentered, l.lines_put_nil] at hleaves

/-- A line that begins with a number, and keeps it when it is cut, leaves all lines of other
numbers. -/
theorem enter_uncut (hr : rest.head?.any Byte.isDigit = false) (hne : ds ≠ [])
    (hcut : s.interpreter.memory.cutLine bytes = ds ++ rest) (hzero : Decimal.value ds ≠ 0)
    (hv : Decimal.value ds < 65535) :
    ∃ after, Leaves after (enter steps bytes s) ∧
      after.filter (·.number.toNat ≠ Decimal.value ds) = l.lines.filter
        (·.number.toNat ≠ Decimal.value ds) := by
  obtain ⟨hsmall, hlarge⟩ := entryNumber_append hd hr (Or.inl hne)
  rw [← hcut] at hsmall hlarge
  have hnumber : entryNumber (s.interpreter.memory.cutLine bytes) ≠ 0 := by
    by_cases hlt : Decimal.value ds < 65530
    · rw [hsmall hlt, Ne, ← UInt16.toNat_inj, UInt16.toNat_ofNat_of_lt'
        (show Decimal.value ds < 65536 by omega)]
      exact hzero
    · rw [hlarge (by omega)]
      decide
  -- Where the line is stored, it is stored under the number that its digits denote.
  have hothers : (entered l s.interpreter.memory.variablesBegin
    (s.interpreter.memory.cutLine bytes)).lines.filter
      (·.number.toNat ≠ Decimal.value ds) = l.lines.filter (·.number.toNat ≠ Decimal.value ds) := by
    by_cases hfit : Storable (entryNumber (s.interpreter.memory.cutLine bytes))
        (entryText (s.interpreter.memory.cutLine bytes)) ∧
        l.Fits s.interpreter.memory.variablesBegin
        (entryNumber (s.interpreter.memory.cutLine bytes))
          (entryText (s.interpreter.memory.cutLine bytes))
    · have hlt : Decimal.value ds < 65530 := Nat.lt_of_not_le fun hle =>
        hfit.1.number_ne_max (hlarge hle)
      rw [entered, Listing.enter_of_fits hfit.1 hfit.2, Listing.filter_toNat_ne _ (by omega),
        Listing.filter_toNat_ne _ (by omega), ← hsmall hlt]
      exact l.filter_ne_put _ _ hfit.1
    · rw [entered, Listing.enter_of_not hfit]
  exact ⟨_, enter_leaves hs steps hnumber, hothers⟩

end

end Session

/-- A numbered line touches no other line as long as there is room for its number. Where the gap or
the longest line that can be typed cuts the number, the line that goes is the one that the digits
before the cut denote. -/
theorem History.enter_numbered {σ : Type} [Host σ] {settings : Settings} {host : σ}
    {threshold : Option Severity} {past : List (Moment σ)} {s : Session σ}
    (h : History (Session.start settings host threshold) past (.idle s)) {ds rest : List UInt8}
    (hd : ∀ d ∈ ds, Byte.isDigit d = true) (hr : rest.head?.any Byte.isDigit = false)
    (hline : ∀ b ∈ ds ++ rest, b ≠ Byte.carriageReturn ∧ b ≠ Byte.marker)
    (hleast : 1 ≤ Decimal.value ds) (hmost : Decimal.value ds ≤ 65534) :
    ∃ before free, s.interpreter.memory.lines = .ok before ∧ s.interpreter.memory.free = .ok free ∧
    ∀ steps,
      if ds.length ≤ min (free - 4) 252 then
        ∃ after, Session.Leaves after (Session.enter steps (ds ++ rest) s) ∧
          after.filter (·.number.toNat ≠ Decimal.value ds) = before.filter
            (·.number.toNat ≠ Decimal.value ds)
      else
        Decimal.value (ds.take (min (free - 4) 252)) < Decimal.value ds ∧
          Session.Leaves
            (before.filter (·.number.toNat ≠ Decimal.value (ds.take (min (free - 4) 252))))
            (Session.enter steps (ds ++ rest) s) := by
  obtain ⟨l, frames, hready⟩ := h.exists_ready
  have hs : s.interpreter.memory.Sane l frames := hready
  have hm := hs.layout
  refine ⟨l.lines, _, Memory.lines_eq hm hs.holds, hm.free_eq, fun steps => ?_⟩
  have hcut := s.interpreter.memory.cutLine_eq hline
  rw [Memory.entryRoom_eq hm] at hcut
  split
  case isTrue hroom =>
    -- The cut falls behind the number, so that no digit follows the digits.
    rw [List.take_append, List.take_of_length_le hroom] at hcut
    have hrest :
      (rest.take (min (s.interpreter.memory.variablesBegin - s.interpreter.memory.programEnd - 4)
      252 -
        ds.length)).head?.any Byte.isDigit = false := by
      cases rest with
      | nil => rw [List.take_nil]; rfl
      | cons b tail =>
        cases min (s.interpreter.memory.variablesBegin - s.interpreter.memory.programEnd - 4)
          252 - ds.length with
        | zero => rfl
        | succ k => exact hr
    exact Session.enter_uncut hs steps hd hrest (by rintro rfl; exact absurd hleast (by decide))
      hcut (by omega)
      (by omega)
  case isFalse hroom =>
    -- The cut falls within the number, and no text is left.
    have hshort := Nat.lt_of_not_le hroom
    have hless := Decimal.ten_mul_value_take_le hshort
    rw [List.take_append_of_le_length (Nat.le_of_lt hshort)] at hcut
    exact ⟨by omega, Session.enter_digits hs steps (fun d hd' => hd d (List.mem_of_mem_take hd'))
      hcut (by omega)⟩

/-- A line 12 leaves the lines 1 and 2 alone where there is room for its number. -/
theorem History.enter_numbered_of_two : ∃ past, ∃ s : Session Script,
    History (Session.start .small {} none) past (.idle s) ∧
    s.interpreter.memory.lines = .ok [⟨1, longText⟩, ⟨2, ascii "END"⟩] ∧
    ∀ steps, ∃ after, Session.Leaves after (Session.enter steps (ascii "12X") s) ∧
      after.filter (·.number.toNat ≠ 12) = [⟨1, longText⟩, ⟨2, ascii "END"⟩] := by
  obtain ⟨past, s, l, frames, hpast, hs, hroom, hlines⟩ :=
    exists_nearly_full (ascii "END") (by decide) (by decide) (by decide) (by decide) (by decide)
  have hdigits : ∀ d ∈ ascii "12", Byte.isDigit d = true := by decide
  have hrest : (ascii "X").head?.any Byte.isDigit = false := rfl
  obtain ⟨before, free, hbefore, hfree, hends⟩ :=
    History.enter_numbered hpast hdigits hrest (by decide) (by decide) (by decide)
  have hstored := Memory.lines_eq hs.layout hs.holds
  have hfree' := hs.layout.free_eq
  rw [hroom] at hfree'
  obtain rfl : before = l.lines := Except.ok.inj (hbefore.symm.trans hstored)
  obtain rfl : free = 198 := Except.ok.inj (hfree.symm.trans hfree')
  rw [show Decimal.value (ascii "12") = 12 by decide, show ascii "12" ++ ascii "X" =
    ascii "12X" by decide] at hends
  refine ⟨past, s, hpast, hlines ▸ hstored, fun steps => ?_⟩
  have h := hends steps
  rw [if_pos (by decide)] at h
  obtain ⟨after, hleaves, hkept⟩ := h
  rw [hlines] at hkept
  exact ⟨after, hleaves, hkept⟩

/-- Where there is room for one byte, a line 12 is taken for the deletion of line 1. -/
theorem History.enter_cut :
    ∃ past, ∃ s : Session Script, History (Session.start .small {} none) past (.idle s) ∧
    s.interpreter.memory.lines = .ok [⟨1, longText⟩, ⟨2, List.replicate 196 (byte 'B')⟩] ∧
    ∀ steps, Session.Leaves [⟨2, List.replicate 196 (byte 'B')⟩]
      (Session.enter steps (ascii "12X") s) := by
  have hlength : (List.replicate 196 (byte 'B')).length ≤ 197 := by
    rw [List.length_replicate]
    decide
  obtain ⟨past, s, l, frames, hpast, hs, hroom, hlines⟩ := exists_nearly_full _ (by decide) hlength
    (by decide +kernel) (by decide +kernel) (by decide +kernel)
  have hcut : s.interpreter.memory.cutLine (ascii "12X") = ascii "1" := by
    rw [Memory.cutLine_eq _ (by decide), Memory.entryRoom_eq hs.layout, hroom,
      List.length_replicate]
    decide
  refine ⟨past, s, hpast, hlines ▸ Memory.lines_eq hs.layout hs.holds, fun steps => ?_⟩
  have h := Session.enter_digits hs steps (by decide) hcut (by decide)
  rw [hlines] at h
  exact h

end LineBasic
