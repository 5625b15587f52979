import LineBasic.Proofs.Session.Lockstep
import LineBasic.Proofs.Session.Numbered
import LineBasic.Proofs.Session.OneLine
import LineBasic.Proofs.Session.Writing
import Mathlib.Data.List.DropRight

namespace LineBasic

theorem Utf8.repair_of_ascii {text : List UInt8} (h : ∀ b ∈ text, b < 128) :
    repair text = text := by
  induction text with
  | nil => rw [repair]
  | cons b rest ih =>
    obtain ⟨hb, hr⟩ := List.forall_mem_cons.1 h
    have hlead : followers b = some [] := if_pos hb
    rw [repair, hlead]
    have hnone : matching [] rest = 0 := by
      cases rest with
      | nil => rfl
      | cons _ _ => rfl
    simp only [hnone, List.length_nil, if_true, List.take_zero, List.drop_zero, ih hr]
    rfl

/-- A stored line that is read back as it is listed: its number can be typed, and its text is of
ASCII bytes, begins with no blank and is folded. -/
structure Line.Rereads (line : Line) : Prop where
  number_lt : line.number.toNat < 65530
  ascii : ∀ b ∈ line.text, b < 128
  return_notMem : Byte.carriageReturn ∉ line.text
  skipBlanks_eq : Lexeme.skipBlanks line.text = line.text
  fold_eq : Case.fold line.text = line.text

section
variable {line : Line}

theorem Line.Rereads.display_eq (h : line.Rereads) :
    line.display = Decimal.digits line.number.toNat ++ Byte.blank :: line.text := by
  rw [Line.display, Utf8.repair_of_ascii h.ascii]

theorem Line.Rereads.length_display_le (h : line.Rereads) :
    line.display.length ≤ line.text.length + 6 := by
  have hdigits : (Decimal.digits line.number.toNat).length ≤ 5 :=
    Decimal.length_digits_le line.number.toNat_lt
  rw [h.display_eq, List.length_append, List.length_cons]
  omega

theorem Line.Rereads.display_typed (h : line.Rereads) (hm : Byte.marker ∉ line.text) :
    ∀ b ∈ line.display, b ≠ Byte.carriageReturn ∧ b ≠ Byte.marker := by
  have hdigit {b : UInt8} (hb : Byte.isDigit b = true) : b ≠ Byte.carriageReturn ∧
      b ≠ Byte.marker :=
    ⟨Byte.ne_of_isDigit hb rfl, Byte.ne_of_isDigit hb rfl⟩
  intro b hb
  simp only [h.display_eq, List.mem_append, List.mem_cons] at hb
  obtain hb | rfl | hb := hb
  · exact hdigit (Decimal.isDigit_of_mem_digits hb)
  · decide
  · exact ⟨fun he => h.return_notMem (he ▸ hb), fun he => hm (he ▸ hb)⟩

/-- The digits of a listed line are its number again, and what follows the blank is its text. -/
theorem Line.Rereads.entry_display (h : line.Rereads) :
    entryNumber line.display = line.number ∧ entryText line.display = line.text := by
  have hdigits : ∀ d ∈ Decimal.digits line.number.toNat, Byte.isDigit d = true :=
    fun d hd => Decimal.isDigit_of_mem_digits hd
  have hne : Decimal.digits line.number.toNat ≠ [] := by
    rw [Decimal.digits]
    split
    · exact List.cons_ne_nil _ _
    · exact List.append_ne_nil_of_right_ne_nil _ (List.cons_ne_nil _ _)
  have hblank : Case.fold (Byte.blank :: line.text) = Byte.blank :: line.text := by
    have hkept : ∀ b ∈ [Byte.blank], Byte.isQuote b = false ∧ Byte.toUpper b = b :=
      List.forall_mem_singleton.2 (by decide)
    have hfold := Case.fold_append hkept line.text
    rwa [h.fold_eq] at hfold
  have hnone : (Byte.blank :: line.text).head?.any Byte.isDigit = false := rfl
  obtain ⟨hread, -⟩ := Lexeme.lineNumber_append hdigits hnone (Or.inl hne)
  rw [Decimal.value_digits] at hread
  have hnumber : Lexeme.lineNumber (Case.fold line.display) =
      (line.number, Byte.blank :: line.text) := by
    rw [h.display_eq, Case.fold_append_of_isDigit hdigits, hblank, hread h.number_lt]
    exact congrArg (·, _) UInt16.ofNat_toNat
  rw [entryNumber, entryText, hnumber]
  exact ⟨rfl, h.skipBlanks_eq⟩

end

/-- A line typed in ASCII is stored as one that is read back as it is listed. -/
theorem rereads_entry {line : List UInt8} (h : ∀ b ∈ line, b < 128 ∧ b ≠ Byte.carriageReturn)
    (hmax : entryNumber line ≠ 65535) : Line.Rereads ⟨entryNumber line, entryText line⟩ := by
  have hfold : ∀ b ∈ Case.fold line, b < 128 ∧ b ≠ Byte.carriageReturn :=
    Case.forall_fold (fun b hb => ⟨Byte.toUpper_lt hb.1, mt Byte.toUpper_eq_carriageReturn hb.2⟩) h
  have htext : ∀ b ∈ entryText line, b < 128 ∧ b ≠ Byte.carriageReturn :=
    fun b hb => hfold b ((entryText_suffix line).subset hb)
  refine ⟨(Lexeme.lineNumber_lt _).resolve_right hmax, fun b hb => (htext b hb).1,
    fun hr => (htext _ hr).2 rfl, ?_, ?_⟩
  · exact List.dropWhile_idempotent _ _
  · -- What stands before the text is the same when it is folded, and so the text is.
    obtain ⟨front, hfront, he⟩ := Lexeme.exists_front_append (Case.fold line)
    have hkept : ∀ b ∈ front, Byte.isQuote b = false ∧ Byte.toUpper b = b := by
      intro b hb
      obtain hblank | hdigit := hfront b hb
      · exact ⟨Byte.isQuote_of_isBlank hblank, Byte.toUpper_of_isBlank hblank⟩
      · exact ⟨Byte.isQuote_of_isDigit hdigit, Byte.toUpper_of_isDigit hdigit⟩
    have htwice := Case.fold_fold line
    rw [← he, Case.fold_append hkept] at htwice
    exact List.append_cancel_left htwice

namespace Memory

/-- What `LIST` writes at the end of a line in a session with this buffer, to any host that takes
all bytes. -/
def Lists (m : Memory) (printed : List (List UInt8)) : Prop :=
  ∀ {ρ : Type} [Host ρ], WritesThrough (fun _ : ρ => True) → ∀ s : Session (Recorded ρ),
    s.interpreter.memory = m →
    s.interpreter.cursor.atEndOfLine = true → ∃ s', Session.list s = .ok .restart s' ∧
      s'.host.written = s.host.written ++ printed.flatMap (· ++ [Byte.marker])

theorem lists_display {m : Memory} {l : Listing} (hm : m.Layout) (hh : m.Holds l) :
    m.Lists (l.lines.map Line.display) := by
  rintro ρ _ hP s rfl hend
  obtain ⟨s', hlist, -, hw⟩ := Session.list_writes hP hm hh hend trivial
  exact ⟨s', hlist, hw⟩

end Memory

namespace Session
variable {σ τ : Type} [Host σ] [Host τ] {first s : Session σ}

/-- The session came about from `first` by entering ASCII lines. Each call may have failed, or be
cut off after some steps, and the host may be another one each time. -/
inductive EnteredFrom (first : Session σ) : Session σ → Prop
  | start : EnteredFrom first first
  | host {s : Session σ} (host : σ) : EnteredFrom first s → EnteredFrom first { s with host }
  | line {s : Session σ} {line : List UInt8} (steps : Nat) : EnteredFrom first s →
      (∀ b ∈ line, b < 128 ∧ b ≠ Byte.carriageReturn ∧ b ≠ Byte.marker) →
      EnteredFrom first (final (Session.enter steps line s))

theorem EnteredFrom.drift (h : EnteredFrom first s) : first.Drift s := by
  induction h with
  | start => exact .refl _
  | host host _ ih => exact ⟨ih.bounds, ih.echo_eq, ih.random_eq, ih.peeks_le⟩
  | line steps _ _ ih => exact ih.trans (drifts_enter steps _ _)

/-- All lines that have been stored are read back as they are listed. -/
theorem EnteredFrom.rereads (h : EnteredFrom first s)
    (hfirst : first.interpreter.memory.Sane .empty []) :
    ∃ l frames, s.interpreter.memory.Sane l frames ∧ ∀ line ∈ l.lines, line.Rereads := by
  induction h with
  | start => exact ⟨_, _, hfirst, fun _ hm => absurd hm List.not_mem_nil⟩
  | host host _ ih => exact ih
  | @line s bytes steps _ hascii ih =>
    obtain ⟨l, frames, hs, hl⟩ := ih
    have hcut : ∀ b ∈ s.interpreter.memory.cutLine bytes, b < 128 ∧ b ≠ Byte.carriageReturn := by
      intro b hb
      have hmem := (List.takeWhile_prefix _).subset (List.mem_of_mem_take hb)
      exact ⟨(hascii b hmem).1, (hascii b hmem).2.1⟩
    have hentered : ∀ line ∈ (entered l s.interpreter.memory.variablesBegin
        (s.interpreter.memory.cutLine bytes)).lines, line.Rereads :=
      Listing.forall_enter hl fun hstorable => rereads_entry hcut hstorable.number_ne_max
    have hends := enter_keeps (P := fun l => ∀ line ∈ l.lines, line.Rereads)
      (fun _ hm => absurd hm List.not_mem_nil) hs hentered steps
    cases hr : Session.enter steps bytes s with
    | ok phase s' =>
      rw [hr] at hends
      exact hends
    | error cause s' =>
      rw [hr] at hends
      exact hends

/-- A listed line that is entered after all lines with smaller numbers is stored behind them. -/
theorem enter_display {s : Session σ} {l : Listing} {frames : List Frame} {line : Line}
    (hs : s.interpreter.memory.Sane l frames) (hline : line.Rereads)
    (hstorable : Storable line.number line.text) (hne : line.text ≠ [])
    (hbelow : ∀ other ∈ l.lines, other.number < line.number) (hshort : line.display.length ≤ 252)
    (hroom : extent l.lines + line.text.length + 10 ≤ s.interpreter.memory.variablesBegin)
    (steps : Nat) :
    ∃ s', enter steps line.display s = .ok .prompt s' ∧
      s'.interpreter.memory.variablesBegin = s.interpreter.memory.variablesBegin ∧
      ∃ l' frames', s'.interpreter.memory.Sane l' frames' ∧ l'.lines = l.lines ++ [line] := by
  have hcut : s.interpreter.memory.cutLine line.display = line.display := by
    have hlength := hline.length_display_le
    rw [Memory.cutLine_eq _ (hline.display_typed hstorable.marker_notMem),
      Memory.entryRoom_eq hs.layout,
      hs.holds.programEnd_eq]
    exact List.take_of_length_le (by omega)
  obtain ⟨hnumber, htext⟩ := hline.entry_display
  have hlines : l.below line.number ++ (Listing.entry line.number line.text ++
    l.above line.number) =
      l.lines ++ [line] := by
    have hfront : l.below line.number = l.lines :=
      List.filter_eq_self.2 fun other hm => decide_eq_true (hbelow other hm)
    have hback : l.above line.number = [] :=
      List.filter_eq_nil_iff.2 fun other hm => by simpa using UInt16.le_of_lt (hbelow other hm)
    rw [hfront, hback, Listing.entry, if_neg hne, List.append_nil]
  have hfit : l.Fits s.interpreter.memory.variablesBegin line.number line.text := by
    rw [Listing.Fits, hlines, extent_append]
    simp only [extent]
    omega
  obtain ⟨s', hrun, hv, h, frames', hs'⟩ := submit_stored line.display hs (hcut.symm ▸ hnumber)
    (hcut.symm ▸ htext)
    hstorable.number_ne_zero hstorable.number_ne_max hfit
  exact ⟨s', enter_of_prompt hrun steps, hv, _, frames', hs', hlines⟩

/-- Entering the rest of a listing after its front gives the whole of it. -/
theorem enter_displays {target : Listing}
    (hlines : ∀ line ∈ target.lines, line.Rereads ∧ line.display.length ≤ 252) (steps : Nat)
    {back front : List Line} (he : target.lines = front ++ back) {s : Session σ} {l : Listing}
    {frames : List Frame} (hs : s.interpreter.memory.Sane l frames) (hl : l.lines = front)
    (hroom : extent target.lines + 6 ≤ s.interpreter.memory.variablesBegin) :
    ∃ s' l' frames', (back.map Line.display).mapM (enter steps) s = .ok
      (List.replicate back.length .prompt) s' ∧
      s'.interpreter.memory.Sane l' frames' ∧ l'.lines = target.lines := by
  -- On the lines still to be entered: each goes behind all that are there, as the listing ascends.
  induction back generalizing front s l frames with
  | nil =>
    rw [List.append_nil] at he
    exact ⟨s, l, frames, rfl, hs, hl.trans he.symm⟩
  | cons line rest ih =>
    have hmem : line ∈ target.lines := he ▸ List.mem_append_right _ List.mem_cons_self
    have hascending := he ▸ target.ascending
    have hbelow : ∀ other ∈ l.lines, other.number < line.number := fun other hm =>
      (List.pairwise_append.1 hascending).2.2 other (hl ▸ hm) line List.mem_cons_self
    have hextent : extent l.lines + line.text.length + 10 ≤
        s.interpreter.memory.variablesBegin := by
      rw [he, extent_append, extent_cons] at hroom
      rw [hl]
      omega
    obtain ⟨s', hrun, hv, l', frames', hs', hl'⟩ :=
      enter_display hs (hlines line hmem).1 (target.storable line hmem)
      (target.text_ne_nil line hmem) hbelow (hlines line hmem).2 hextent steps
    have he' : target.lines = (front ++ [line]) ++ rest := by
      rw [he, List.append_assoc]
      rfl
    obtain ⟨s'', l'', frames'', hruns, hs'', hl''⟩ :=
      ih he' hs' (hl'.trans (by rw [hl])) (hv ▸ hroom)
    refine ⟨s'', l'', frames'', ?_, hs'', hl''⟩
    rw [List.map_cons, List.mapM_cons, bind_of_ok hrun, bind_of_ok hruns]
    rfl

/-- Entering the lines that `LIST` writes into a fresh session with the same settings gives the same
program, byte for byte, if every line was entered as ASCII bytes and is listed in 252 bytes at most,
and 6 bytes are free. -/
theorem EnteredFrom.relist {settings : Settings} {host : σ} {threshold : Option Severity}
    (h : EnteredFrom (Session.start settings host threshold) s) {lines : List Line} {free : Nat}
    (hlines : s.interpreter.memory.lines = .ok lines)
    (hshort : ∀ line ∈ lines, line.display.length ≤ 252)
    (hfree : s.interpreter.memory.free = .ok free) (hroom : 6 ≤ free) (host' : τ)
    (threshold' : Option Severity) (steps : Nat) :
    s.interpreter.memory.Lists (lines.map Line.display) ∧
    ∃ t, (lines.map Line.display).mapM (Session.enter steps)
      (Session.start settings host' threshold') =
        .ok (List.replicate lines.length .prompt) t ∧
      t.interpreter.memory.program = s.interpreter.memory.program ∧
      t.interpreter.memory.Lists (lines.map Line.display) := by
  obtain ⟨l, frames, hs, hrereads⟩ := h.rereads (sane_start settings host threshold)
  rw [Memory.lines_eq hs.layout hs.holds] at hlines
  cases hlines
  rw [Memory.free_eq_extent hs.layout hs.holds] at hfree
  cases hfree
  have hstart : (Session.start settings host' threshold').interpreter.memory.variablesBegin =
      s.interpreter.memory.variablesBegin := h.drift.bounds.variablesBegin_eq.symm
  obtain ⟨t, l', frames', hrun, ht, hl'⟩ := enter_displays
    (fun line hm => ⟨hrereads line hm, hshort line hm⟩) steps
    (List.nil_append l.lines).symm (sane_start settings host' threshold') rfl (hstart ▸ by omega)
  refine ⟨Memory.lists_display hs.layout hs.holds, t, hrun, ?_, ?_⟩
  · rw [ht.holds.program_eq ht.toSound.programEnd_le, hs.holds.program_eq hs.toSound.programEnd_le,
      hl']
  · exact hl' ▸ Memory.lists_display ht.layout ht.holds

/-- Two lines that were entered in lower case and in the other order are listed and entered again.
-/
theorem EnteredFrom.relist_two_lines : ∃ s t : Session Script,
    s.interpreter.memory.Lists [ascii "5 GOTO 10", ascii "10 PRINT'a"] ∧
    [ascii "5 GOTO 10", ascii "10 PRINT'a"].mapM (Session.enter 1)
        (Session.start { ramSize := 1024 } ({} : Script) none) = .ok [.prompt, .prompt] t ∧
      t.interpreter.memory.program = s.interpreter.memory.program ∧
      t.interpreter.memory.Lists [ascii "5 GOTO 10", ascii "10 PRINT'a"] := by
  obtain ⟨s, hs, hrun⟩ : ∃ s, EnteredFrom (Session.start { ramSize := 1024 } ({} : Script) none) s ∧
      (match s.interpreter.memory.lines, s.interpreter.memory.free with
        | .ok lines, .ok free =>
          decide (lines = [⟨5, ascii "GOTO 10"⟩, ⟨10, ascii "PRINT'a"⟩] ∧ free = 900)
        | _, _ => false) = true :=
    ⟨_, (EnteredFrom.start.line 1 (by decide : ∀ b ∈ ascii "10print'a", _)).line 1
      (by decide +kernel : ∀ b ∈ ascii "5 goto 10", _), by decide +kernel⟩
  split at hrun
  case h_2 => cases hrun
  case h_1 lines free hlines hfree =>
    obtain ⟨rfl, rfl⟩ := of_decide_eq_true hrun
    have hdisplay : [Line.mk 5 (ascii "GOTO 10"), ⟨10, ascii "PRINT'a"⟩].map Line.display =
        [ascii "5 GOTO 10", ascii "10 PRINT'a"] := by
      decide +kernel
    obtain ⟨hlists, t, hentered, hprogram, hlists'⟩ :=
      hs.relist hlines (by decide +kernel) hfree (by decide) ({} : Script) none 1
    rw [hdisplay] at hlists hentered hlists'
    exact ⟨s, t, hlists, hentered, hprogram, hlists'⟩

end Session
end LineBasic
