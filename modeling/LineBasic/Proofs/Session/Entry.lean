import LineBasic.Proofs.Memory.Merge
import LineBasic.Proofs.Session.Ready

namespace LineBasic

namespace Memory
variable {m m' : Memory} {l : Listing} {frames : List Frame}

theorem Sane.onlyGap (h : m.Sane l frames) (hg : m.OnlyGap m') : m'.Sane l frames := by
  refine ⟨h.toSound.onlyGap hg, ?_⟩
  rw [hg.variablesBegin_eq]
  exact h.resumes

theorem Sane.merged {l' : Listing} {frames' : List Frame} (h : m.Sane l frames)
    (hg : Merged m m' l l' frames frames') : m'.Sane l' frames' := by
  refine ⟨hg.sound, fun frame hf => ?_⟩
  rcases hg.unstacked with rfl | ⟨rfl, rfl, rfl⟩
  · exact absurd hf List.not_mem_nil
  · exact h.resumes frame hf

end Memory

namespace Interpreter

def entryEnd (i : Interpreter) : Nat :=
  match i.directText with
  | none => min (i.memory.variablesBegin - 2) (i.memory.entryStart + Session.maxEntryLength)
  | some direct =>
    min (min (i.memory.variablesBegin - 2) (i.memory.entryStart + Session.maxEntryLength))
      (direct - 1)

theorem entryEnd_le (i : Interpreter) : i.entryEnd ≤ i.memory.variablesBegin - 2 ∧
    i.entryEnd ≤ i.memory.entryStart + Session.maxEntryLength := by
  unfold entryEnd
  cases i.directText with
  | none => exact ⟨Nat.min_le_left _ _, Nat.min_le_right _ _⟩
  | some direct =>
    exact ⟨Nat.le_trans (Nat.min_le_left _ _) (Nat.min_le_left _ _),
      Nat.le_trans (Nat.min_le_left _ _) (Nat.min_le_right _ _)⟩

end Interpreter

namespace Session
variable {σ : Type} {l : Listing} {frames : List Frame} {line : List UInt8}

theorem entryLimit_eq {s : Session σ} (hm : s.interpreter.memory.Layout) :
    entryLimit s = .ok s.interpreter.entryEnd s := by
  have hlimit := lookIn_of_ok (s := s) (f := (·.entryLimit)) hm.entryLimit_eq
  unfold entryLimit
  rw [bind_of_ok (show look (·.memory.entryStart) s = .ok s.interpreter.memory.entryStart
    s from rfl),
    bind_of_ok hlimit]
  refine (bind_of_ok (show look (·.directText) s = .ok s.interpreter.directText s from rfl)).trans
    ?_
  unfold Interpreter.entryEnd
  cases s.interpreter.directText with
  | none => rfl
  | some direct => rfl

def taken (s : Session σ) (line : List UInt8) : Session σ :=
  { s with interpreter := { s.interpreter with
      memory := s.interpreter.memory.taken line
      currentLine := none } }

theorem storeLine_of_ok {s : Session σ} {number : UInt16} {body : Nat} {edit : Memory.Edit}
    {m : Memory} (h : Memory.insertStaged number body s.interpreter.memory = .ok edit m) :
    ∃ journal, storeLine number body s = .ok () { s.withMemory m with journal } := by
  obtain ⟨removed, stored⟩ := edit
  unfold storeLine
  rw [bind_of_ok (onMemory_of_ok h)]
  cases removed with
  | true =>
    cases stored with
    | none => exact ⟨_, rfl⟩
    | some length => exact ⟨_, rfl⟩
  | false =>
    cases stored with
    | none => exact ⟨_, rfl⟩
    | some length => exact ⟨_, rfl⟩

theorem storeLine_of_error {s : Session σ} {number : UInt16} {body : Nat} {e : Halt} {m : Memory}
    (h : Memory.insertStaged number body s.interpreter.memory = .error e m) :
    storeLine number body s = .error e (s.withMemory m) :=
  bind_of_error (onMemory_of_error h)

theorem attempt_of_ok {α : Type} {act : Act σ α} {s s' : Session σ} {a : α} (h : act s = .ok a s') :
    attempt act s = .ok (.ok a) s' := by
  simp only [attempt, h]

theorem attempt_of_error {α : Type} {act : Act σ α} {s s' : Session σ} {e : Error}
    (h : act s = .error (.error e) s') : attempt act s = .ok (.error e) s' := by
  simp only [attempt, h]

variable [Host σ]

def Reported (e : Error) (i : Interpreter) (phase : Phase) (j : Interpreter) : Prop :=
  e.category = .exhausted ∧ phase = .restart ∧ j = i ∨
    e.category ≠ .exhausted ∧ phase = .prompt ∧ j = { i with currentLine := none }

/-- Reporting a failure changes the current line at most. What is exhausted leads to a restart. -/
theorem concludes_report (e : Error) : Concludes (Reported e) (report e : Act σ Phase) := by
  refine (talks_look (·.currentLine)).conclude fun current => (talks_note _).conclude fun _ => ?_
  cases hc : e.category with
  | malformed =>
    have hend : Concludes (Reported e) (newline >>= fun _ =>
        change (fun i => { i with currentLine := none }) >>= fun _ =>
          pure .prompt : Act σ Phase) := by
      refine talks_newline.conclude fun _ => ?_
      intro s _
      exact Or.inr ⟨by rw [hc]; decide, rfl, rfl⟩
    refine (talks_print _).conclude fun _ => (talks_writeByte _).conclude fun _ => ?_
    cases current with
    | none => exact hend
    | some address =>
      refine (talks_lookIn fun m hm => Memory.exists_lineAt hm address).conclude fun found => ?_
      cases found with
      | none => exact hend
      | some line =>
        exact (talks_print _).conclude fun _ => (talks_writeByte _).conclude fun _ =>
          (talks_print _).conclude fun _ => hend
  | impossible =>
    refine (talks_printLine _).conclude fun _ => ?_
    intro s _
    exact Or.inr ⟨by rw [hc]; decide, rfl, rfl⟩
  | exhausted =>
    refine (talks_printLine _).conclude fun _ => ?_
    intro s _
    exact Or.inl ⟨hc, rfl, rfl⟩

theorem accept_eq {s : Session σ} (hm : s.interpreter.memory.Layout)
    (ht : s.interpreter.memory.Typed line) :
    accept s = (if entryNumber line = 0 then do
        change fun i => { i with
          textPos := s.interpreter.memory.bodyStart line
          directText := some (s.interpreter.memory.stagingStart line) }
        return .direct
      else if entryNumber line = 65535 then
        report (.impossible (s.interpreter.memory.bodyStart line) .invalidLineNumber)
      else do
        match ← attempt (storeLine (entryNumber line) (s.interpreter.memory.bodyStart line)) with
        | .ok () => return .prompt
        | .error e => report e : Act σ Phase) (s.taken line) := by
  have hfold := onMemory_of_ok (s := s) (ht.foldCase_eq hm)
  have hstage := onMemory_of_ok (s := s.withMemory (s.interpreter.memory.folded line))
    ((ht.folded hm).stage_eq ((ht.onlyGap_folded hm).layout hm))
  rw [Memory.stagingStart_folded] at hstage
  obtain ⟨hnumber, hbody⟩ := ht.lineNumber_taken hm
  unfold accept
  refine (bind_of_ok (show look (·.memory.entryStart) s = .ok s.interpreter.memory.entryStart s
    from rfl)).trans ?_
  rw [bind_of_ok hfold]
  refine (bind_of_ok hstage).trans ?_
  rw [← hnumber, ← hbody]
  rfl

/-- What follows a typed line: it is executed if it has no number, and otherwise a line is asked
for, after a restart where there was no room. -/
def Answered (l : Listing) (top : Nat) (line : List UInt8) (phase : Phase) : Prop :=
  entryNumber line = 0 ∧ phase = .direct ∨
  entryNumber line = 65535 ∧ phase = .prompt ∨
  Storable (entryNumber line) (entryText line) ∧ l.Fits top (entryNumber line) (entryText line) ∧
    phase = .prompt ∨
  Storable (entryNumber line) (entryText line) ∧ ¬ l.Fits top (entryNumber line) (entryText line) ∧
    phase = .restart

def entered (l : Listing) (top : Nat) (line : List UInt8) : Listing :=
  l.enter top (entryNumber line) (entryText line)

/-- What comes of a program: it stays as it is, all lines go, or a typed line is taken. -/
inductive Becomes (l : Listing) : Listing → Prop
  | same : Becomes l l
  | emptied : Becomes l .empty
  | entered (top : Nat) (line : List UInt8) : Becomes l (entered l top line)

def Unstacked (l l' : Listing) (frames frames' : List Frame) : Prop :=
  frames' = [] ∨ frames' = frames ∧ l' = l

section
variable {s : Session σ} (hs : s.interpreter.memory.Sound l frames)
  (ht : s.interpreter.memory.Typed line)
include hs ht

theorem accept_direct (hzero : entryNumber line = 0) :
    accept s = .ok .direct { s.taken line with interpreter := { (s.taken line).interpreter with
      textPos := s.interpreter.memory.bodyStart line
      directText := some (s.interpreter.memory.stagingStart line) } } := by
  rw [accept_eq hs.layout ht, if_pos hzero]
  rfl

theorem accept_invalid (hmax : entryNumber line = 65535) :
    accept s = report (.impossible (s.interpreter.memory.bodyStart line) .invalidLineNumber)
      (s.taken line) := by
  rw [accept_eq hs.layout ht, if_neg (by rw [hmax]; decide), if_pos hmax]

variable (hzero : entryNumber line ≠ 0) (hmax : entryNumber line ≠ 65535)
include hzero hmax

theorem accept_full
    (hfull : ¬ l.Fits s.interpreter.memory.variablesBegin (entryNumber line) (entryText line)) :
    accept s = report (.exhausted .programAreaFull) (s.taken line) := by
  have htaken : (s.taken line).interpreter.memory.Sound l frames :=
    hs.onlyGap (ht.onlyGap_taken hs.layout)
  have hstore := storeLine_of_error (s := s.taken line)
    (Memory.insertStaged_full htaken (ht.staged_taken hs.layout hzero hmax) hfull)
  rw [accept_eq hs.layout ht, if_neg hzero, if_neg hmax, bind_of_ok (attempt_of_error hstore)]
  rfl

theorem accept_stored
    (hfit : l.Fits s.interpreter.memory.variablesBegin (entryNumber line) (entryText line)) :
    ∃ m journal, accept s = .ok .prompt { (s.taken line).withMemory m with journal } ∧
      Memory.insertStaged (entryNumber line) (s.interpreter.memory.bodyStart line)
        (s.interpreter.memory.taken line) =
        .ok (Memory.editOf l (entryNumber line) (entryText line)) m ∧
      (s.interpreter.memory.taken line).Merged m l
        (l.put _ _ (ht.staged_taken hs.layout hzero hmax).storable)
        frames ((Memory.editOf l (entryNumber line) (entryText line)).unstack frames) := by
  have htaken : (s.taken line).interpreter.memory.Sound l frames :=
    hs.onlyGap (ht.onlyGap_taken hs.layout)
  obtain ⟨m, hrun, hmerged⟩ := Memory.insertStaged_merged htaken
    (ht.staged_taken hs.layout hzero hmax) hfit
  obtain ⟨journal, hstore⟩ := storeLine_of_ok (s := s.taken line) hrun
  rw [accept_eq hs.layout ht, if_neg hzero, if_neg hmax]
  exact ⟨m, journal, bind_of_ok (attempt_of_ok hstore), hrun, hmerged⟩

omit hzero hmax in
/-- All that can come of a typed line: it gets ready to be executed, it is stored, or it is refused
with a report. -/
theorem accept_cases :
    (entryNumber line = 0 ∧
      accept s = .ok .direct { s.taken line with interpreter := { (s.taken line).interpreter with
        textPos := s.interpreter.memory.bodyStart line
        directText := some (s.interpreter.memory.stagingStart line) } }) ∨
    (∃ e, ¬ (Storable (entryNumber line) (entryText line) ∧
        l.Fits s.interpreter.memory.variablesBegin (entryNumber line) (entryText line)) ∧
      accept s = report e (s.taken line)) ∨
    ∃ (h : Storable (entryNumber line) (entryText line)) (m : Memory) (journal : Journal),
      l.Fits s.interpreter.memory.variablesBegin (entryNumber line) (entryText line) ∧
      accept s = .ok .prompt { (s.taken line).withMemory m with journal } ∧
      (s.interpreter.memory.taken line).Merged m l (l.put _ _ h) frames
        ((Memory.editOf l (entryNumber line) (entryText line)).unstack frames) := by
  by_cases hzero : entryNumber line = 0
  · exact Or.inl ⟨hzero, accept_direct hs ht hzero⟩
  by_cases hmax : entryNumber line = 65535
  · exact Or.inr (Or.inl ⟨_, fun h => h.1.number_ne_max hmax, accept_invalid hs ht hmax⟩)
  by_cases hfit : l.Fits s.interpreter.memory.variablesBegin (entryNumber line) (entryText line)
  · obtain ⟨m, journal, hrun, -, hmerged⟩ := accept_stored hs ht hzero hmax hfit
    exact Or.inr (Or.inr ⟨_, m, journal, hfit, hrun, hmerged⟩)
  · exact Or.inr (Or.inl ⟨_, fun h => hfit h.2, accept_full hs ht hzero hmax hfit⟩)

end

theorem report_sane {s : Session σ} (hs : s.interpreter.memory.Sane l frames) (e : Error) :
    Ends (report e s)
      (fun phase s' => (e.category = .exhausted ∧ phase = .restart ∨ e.category ≠ .exhausted ∧
        phase = .prompt) ∧
        s'.interpreter.memory.Sane l frames)
      fun h s' => (∃ e, h = .io e) ∧ s'.interpreter.memory.Sane l frames := by
  refine (concludes_report e s hs.layout).mono (fun phase s' h => ?_) fun h s' hh =>
    ⟨hh.2, hh.1 ▸ hs⟩
  obtain ⟨hc, hphase, hj⟩ | ⟨hc, hphase, hj⟩ := h
  · exact ⟨Or.inl ⟨hc, hphase⟩, hj ▸ hs⟩
  · refine ⟨Or.inr ⟨hc, hphase⟩, ?_⟩
    rw [hj]
    exact hs

theorem accept_ends {s : Session σ} (hs : s.interpreter.memory.Sane l frames)
    (ht : s.interpreter.memory.Typed line) :
    Ends (accept s)
      (fun phase s' => Answered l s.interpreter.memory.variablesBegin line phase ∧
        ∃ frames', s'.interpreter.Ready (entered l s.interpreter.memory.variablesBegin line)
          frames' phase ∧
          Unstacked l (entered l s.interpreter.memory.variablesBegin line) frames frames')
      (fun h s' => (∃ e, h = .io e) ∧ ∃ frames',
        s'.interpreter.memory.Sane (entered l s.interpreter.memory.variablesBegin line) frames' ∧
          Unstacked l (entered l s.interpreter.memory.variablesBegin line) frames frames') := by
  have hm := hs.layout
  have htaken : (s.taken line).interpreter.memory.Sane l frames := hs.onlyGap (ht.onlyGap_taken hm)
  by_cases hzero : entryNumber line = 0
  · rw [accept_direct hs.toSound ht hzero, entered, Listing.enter_of_not
      fun h => h.1.number_ne_zero hzero]
    refine ⟨Or.inl ⟨hzero, rfl⟩, frames, ⟨⟨htaken, ht.last_taken hm⟩, ?_⟩, Or.inr ⟨rfl, rfl⟩⟩
    have := ht.length_entryText_le
    have := hs.holds.programEnd_eq
    refine ⟨?_, ?_⟩
    · show extent l.lines < s.interpreter.memory.variablesBegin - 1 - _
      omega
    · show s.interpreter.memory.variablesBegin - 1 - _ < s.interpreter.memory.variablesBegin
      omega
  by_cases hmax : entryNumber line = 65535
  · rw [accept_invalid hs.toSound ht hmax, entered, Listing.enter_of_not
      fun h => h.1.number_ne_max hmax]
    refine (report_sane htaken _).mono (fun phase s' h => ?_) fun h s' hh => ?_
    · obtain ⟨⟨he, -⟩ | ⟨-, rfl⟩, hsane⟩ := h
      · cases he
      · exact ⟨Or.inr (Or.inl ⟨hmax, rfl⟩), frames, hsane, Or.inr ⟨rfl, rfl⟩⟩
    · exact ⟨hh.1, frames, hh.2, Or.inr ⟨rfl, rfl⟩⟩
  have hstorable := (ht.staged_taken hm hzero hmax).storable
  by_cases hfit : l.Fits s.interpreter.memory.variablesBegin (entryNumber line) (entryText line)
  · obtain ⟨m, journal, hrun, -, hmerged⟩ := accept_stored hs.toSound ht hzero hmax hfit
    rw [entered, Listing.enter_of_fits hstorable hfit]
    refine Ends.of_ok hrun ⟨?_, _, htaken.merged hmerged, ?_⟩
    · exact Or.inr (Or.inr (Or.inl ⟨hstorable, hfit, rfl⟩))
    · exact hmerged.unstacked.imp_right fun h => ⟨h.1, h.2.1⟩
  · rw [accept_full hs.toSound ht hzero hmax hfit, entered, Listing.enter_of_not fun h => hfit h.2]
    refine (report_sane htaken _).mono (fun phase s' h => ?_) fun h s' hh => ?_
    · obtain ⟨⟨-, rfl⟩ | ⟨he, -⟩, hsane⟩ := h
      · exact ⟨Or.inr (Or.inr (Or.inr ⟨hstorable, hfit, rfl⟩)), frames, hsane, Or.inr ⟨rfl, rfl⟩⟩
      · exact absurd rfl he
    · exact ⟨hh.1, frames, hh.2, Or.inr ⟨rfl, rfl⟩⟩

theorem submit_eq {s : Session σ} (bytes : List UInt8) (hm : s.interpreter.memory.Layout) :
    submit bytes s = accept { s with interpreter := { s.interpreter with
      memory := s.interpreter.memory.placed (s.interpreter.memory.cutLine bytes)
      directText := none } } := by
  have hlimit := entryLimit_eq (s := { s with interpreter :=
    { s.interpreter with directText := none } }) hm
  have hplace := onMemory_of_ok (s := { s with interpreter :=
    { s.interpreter with directText := none } })
    (Memory.placeEntry_eq bytes hm)
  unfold submit
  refine (bind_of_ok (show change (fun i => { i with directText := none }) s =
    .ok () _ from rfl)).trans ?_
  rw [bind_of_ok hlimit]
  exact bind_of_ok hplace

/-- A line that is submitted is taken as if it had been typed. -/
theorem submit_ends {s : Session σ} (bytes : List UInt8) (hs : s.interpreter.memory.Sane l frames) :
    Ends (submit bytes s)
      (fun phase s' =>
        Answered l s.interpreter.memory.variablesBegin (s.interpreter.memory.cutLine bytes) phase ∧
        ∃ frames', s'.interpreter.Ready (entered l s.interpreter.memory.variablesBegin
            (s.interpreter.memory.cutLine bytes)) frames' phase ∧
          Unstacked l (entered l s.interpreter.memory.variablesBegin
            (s.interpreter.memory.cutLine bytes))
            frames frames')
      (fun h s' => (∃ e, h = .io e) ∧ ∃ frames', s'.interpreter.memory.Sane
          (entered l s.interpreter.memory.variablesBegin (s.interpreter.memory.cutLine bytes))
            frames' ∧
        Unstacked l (entered l s.interpreter.memory.variablesBegin
          (s.interpreter.memory.cutLine bytes))
          frames frames') := by
  have hm := hs.layout
  have hgap := Memory.onlyGap_placed bytes hm
  rw [submit_eq bytes hm]
  have h := accept_ends (s := { s with interpreter := { s.interpreter with
    memory := s.interpreter.memory.placed (s.interpreter.memory.cutLine bytes)
    directText := none } }) (hs.onlyGap hgap) (Memory.typed_placed bytes hm)
  exact h

theorem submit_stored {s : Session σ} {number : UInt16} {text : List UInt8} (bytes : List UInt8)
    (hs : s.interpreter.memory.Sane l frames)
    (hnumber : entryNumber (s.interpreter.memory.cutLine bytes) = number)
    (htext : entryText (s.interpreter.memory.cutLine bytes) = text) (hzero : number ≠ 0)
    (hmax : number ≠ 65535) (hfit : l.Fits s.interpreter.memory.variablesBegin number text) :
    ∃ s', submit bytes s = .ok .prompt s' ∧
      s'.interpreter.memory.variablesBegin = s.interpreter.memory.variablesBegin ∧
      ∃ h frames', s'.interpreter.memory.Sane (l.put number text h) frames' := by
  subst hnumber htext
  have hm := hs.layout
  have htyped := Memory.typed_placed bytes hm
  have hplaced := hs.onlyGap (Memory.onlyGap_placed bytes hm)
  obtain ⟨m, journal, hrun, -, hmerged⟩ := accept_stored
    (s := { s with interpreter := { s.interpreter with
    memory := s.interpreter.memory.placed (s.interpreter.memory.cutLine bytes)
    directText := none } }) hplaced.toSound htyped hzero hmax hfit
  have htaken := hplaced.onlyGap (htyped.onlyGap_taken hplaced.layout)
  exact ⟨_, (submit_eq bytes hm).trans hrun, hmerged.variablesBegin_eq, _, _, htaken.merged hmerged⟩

end Session
end LineBasic
