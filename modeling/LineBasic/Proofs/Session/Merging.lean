import LineBasic.Proofs.Session.Editing
import LineBasic.Proofs.Store

namespace LineBasic

namespace Memory
variable {m : Memory} {l : Listing} {frames : List Frame} {line : List UInt8}

def entryAt (m : Memory) (start : Nat) : UInt16 × Nat :=
  let (number, c) := Cursor.lineNumber ⟨m.ram, start⟩
  (number, c.skipBlanks.pos)

/-- The line that has been typed into a buffer is taken: it is upper-cased, staged and, if it has a
number, merged. -/
structure TakesLine (m folded staged : Memory) (start : Nat) : Prop where
  foldCase_eq : foldCase m.entryStart m = .ok () folded
  /-- The line ends with a marker, below the variables. -/
  marked : ∃ line, Byte.marker ∉ line ∧ Stands folded.ram m.entryStart (line ++ [Byte.marker]) ∧
    m.entryStart + line.length < folded.variablesBegin
  stage_eq : stage m.entryStart folded = .ok start staged
  /-- There is room for the header, and the length of the record fits one byte; what can be missing
  is room in the program. -/
  merges : let number := (staged.entryAt start).1
    let body := (staged.entryAt start).2
    number ≠ 0 → number ≠ 65535 →
      staged.programEnd + 4 ≤ body ∧ body < staged.variablesBegin ∧
      staged.variablesBegin - (body - 3) ≤ 255 ∧
      Ends (insertStaged number body staged) (fun _ _ => True)
        fun h m' => h = .error (.exhausted .programAreaFull) ∧ m' = staged

/-- Every line that has been typed, of a sound buffer, can be taken. -/
theorem Typed.takesLine (h : m.Typed line) (hs : m.Sound l frames) :
    m.TakesLine (m.folded line) (m.taken line) (m.stagingStart line) := by
  have hm := hs.layout
  have hfolded := h.folded hm
  have hstage := hfolded.stage_eq ((h.onlyGap_folded hm).layout hm)
  rw [stagingStart_folded] at hstage
  refine ⟨h.foldCase_eq hm, ⟨Case.fold line, hfolded.marker_notMem, hfolded.stands, ?_⟩, hstage, ?_⟩
  · have hroom := hfolded.room
    have hstart : (m.folded line).entryStart = m.entryStart := rfl
    omega
  · obtain ⟨hnumber, hbody⟩ := h.lineNumber_taken hm
    have hentry : (m.taken line).entryAt (m.stagingStart line) =
        (entryNumber line, m.bodyStart line) :=
      Prod.ext hnumber hbody
    rw [hentry]
    intro number body hzero hmax
    have hstaged := h.staged_taken hm hzero hmax
    have hroom := hstaged.room
    have hend := hstaged.body_eq
    have hlength := hstaged.storable.length_le
    refine ⟨hroom, by omega, by omega, ?_⟩
    have hsound := hs.onlyGap (h.onlyGap_taken hm)
    by_cases hfit : l.Fits m.variablesBegin number (entryText line)
    · obtain ⟨m', hrun, -⟩ := insertStaged_merged hsound hstaged hfit
      exact Ends.of_ok hrun trivial
    · rw [insertStaged_full hsound hstaged hfit]
      exact ⟨rfl, rfl⟩

/-- An `upsert` whose own checks pass merges its line, and one whose checks fail leaves the buffer
as it was. -/
theorem Sound.upserts (h : m.Sound l frames) (number : UInt16) (text : List UInt8) :
    (m.Accepts number text → ∃ edit m', insertStaged number (m.stagingStart text) (m.staged text) =
      .ok edit m' ∧
      upsert number text m = .ok edit m') ∧
    (¬ m.Accepts number text → ∃ e, upsert number text m = .error (.error e) m) := by
  constructor
  · intro ha
    obtain ⟨edit, m', hrun, -⟩ := upsert_merged h ha
    exact ⟨edit, m', (upsert_eq h.layout ha).symm.trans hrun, hrun⟩
  · exact upsert_error h.layout

end Memory

namespace Session
variable {σ : Type}

/-- A session at the moment when a line that is entered is taken. -/
def entering (s : Session σ) (line : List UInt8) : Session σ :=
  { s with interpreter := { s.interpreter with
      memory := s.interpreter.memory.placed (s.interpreter.memory.cutLine line)
      directText := none } }

end Session

/-- What merges a line never meets the checks that guard its header and its length. At every moment
of every session, whatever line is entered, and wherever the line that is typed ends, the line is
marked and can be taken: if it has a number, what can be missing is room in the program. And an
`upsert`, of any buffer that a sequence of them leads to, merges its line as soon as its own checks
pass, and leaves the buffer as it was where they fail. -/
theorem merge_lacks_only_room :
    (∀ {σ : Type} [Host σ] (settings : Settings) (host : σ) (threshold : Option Severity)
      (past : List (Moment σ)) (M : Moment σ),
      History (Session.start settings host threshold) past M →
      (∀ s, M = .idle s → ∀ line, Session.submit line s = Session.accept (s.entering line) ∧
        ∃ folded staged start, (s.entering line).interpreter.memory.TakesLine folded staged start) ∧
      ∀ call pos s, M = .busy call (.edit .command pos) s →
        (∀ b host, Host.read s.host = .ok b host → Byte.EndsLine b →
          Session.typeByte .command pos s = (do
            if s.interpreter.echo then Session.newline
            Session.onMemory (Memory.write pos [Byte.marker])
            Session.accept : Act σ Phase) { s with host }) ∧
        Memory.write pos [Byte.marker] s.interpreter.memory = .ok ()
          (s.interpreter.memory.typed pos Byte.marker) ∧
        ∃ folded staged start, (s.interpreter.memory.typed pos Byte.marker).TakesLine folded
          staged start) ∧
    ∀ (ramSize stackFrames : UInt64) (m : Memory), Memory.Upserted (.create ramSize stackFrames) m →
      ∀ number text,
        (m.Accepts number text → ∃ edit m',
          Memory.insertStaged number (m.stagingStart text) (m.staged text) = .ok edit m' ∧
            Memory.upsert number text m = .ok edit m') ∧
        (¬ m.Accepts number text → ∃ e, Memory.upsert number text m = .error (.error e) m) := by
  refine ⟨fun settings host threshold past M h => ?_, fun ramSize stackFrames m h number text => ?_⟩
  · obtain ⟨l, frames, hready⟩ := h.exists_ready
    have hsound := hready.sane.toSound
    refine ⟨?_, ?_⟩
    · rintro s rfl line
      have hm : s.interpreter.memory.Layout := hsound.layout
      have hplaced := hsound.onlyGap (Memory.onlyGap_placed line hm)
      exact ⟨Session.submit_eq line hm, _, _, _, (Memory.typed_placed line hm).takesLine hplaced⟩
    · rintro call pos s rfl
      have hm : s.interpreter.memory.Layout := hsound.layout
      obtain ⟨-, htyping⟩ := hready
      have htyped := hsound.onlyGap (htyping.onlyGap_typed hm Byte.marker)
      refine ⟨fun b host hr hb => ?_, htyping.write_eq hm Byte.marker, _, _, _,
        (htyping.typed_marker hm).takesLine htyped⟩
      rw [Session.typeByte_of_read .command hm hr, if_pos hb]
      rfl
  · obtain ⟨l, frames, hsound⟩ := h.exists_sound
    exact hsound.upserts number text

set_option linter.constructorNameAsVariable false in
/-- A line is entered, an empty one is typed at the prompt, and one is stored and one refused by
`upsert`. -/
theorem merge_lacks_only_room_of_lines :
    (∃ s : Session Script, ∃ folded staged start,
      (s.entering (ascii "10 END")).interpreter.memory.TakesLine folded staged start) ∧
    (∃ s : Session Script, ∃ folded staged start,
      (s.interpreter.memory.typed 2 Byte.marker).TakesLine folded staged start) ∧
    (∃ edit m', Memory.upsert 10 (ascii "END") (.create 1024 5) = .ok edit m') ∧
    ∃ e, Memory.upsert 0 (ascii "END") (.create 1024 5) = .error (.error e) (.create 1024 5) := by
  obtain ⟨hsessions, hupserts⟩ := merge_lacks_only_room
  refine ⟨?_, ?_, ?_, ?_⟩
  · obtain ⟨hentered, -⟩ := hsessions { ramSize := 1024 } ({} : Script) none [] _ .start
    exact ⟨_, (hentered _ rfl (ascii "10 END")).2⟩
  · have hserve : Ends (Session.serve 4 (Session.start { ramSize := 1024 } ({} : Script) none))
        (fun phase _ => phase = .edit .command 2) fun _ _ => False := by
      decide +kernel
    obtain ⟨_, s, hs, rfl⟩ := hserve.exists_ok
    obtain ⟨past, htyping⟩ := History.start.serve_of_ok hs
    obtain ⟨-, htyped⟩ := hsessions _ _ _ past _ htyping
    exact ⟨s, (htyped .serve 2 s rfl).2.2⟩
  · exact ((hupserts 1024 5 _ .start 10 (ascii "END")).1 ⟨by decide, by decide⟩).imp
      fun _ ⟨m', _, hrun⟩ => ⟨m', hrun⟩
  · exact (hupserts 1024 5 _ .start 0 (ascii "END")).2 fun ha => ha.storable.number_ne_zero rfl

end LineBasic
