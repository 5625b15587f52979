import LineBasic.Host.Script
import LineBasic.Proofs.Session.History

namespace LineBasic

/-- The second program is the first with a line set to a text, or without the line where the text is
empty. -/
def Listing.Sets (l : Listing) (number : UInt16) (text : List UInt8) (l' : Listing) : Prop :=
  ∀ k, l'.text? k = if k = number then (if text = [] then none else some text) else l.text? k

theorem Listing.sets_put (l : Listing) {number : UInt16} {text : List UInt8}
    (h : Storable number text) :
    l.Sets number text (l.put number text h) :=
  l.text?_put number text h

namespace Memory
variable {m m' : Memory} {l : Listing} {frames : List Frame} {number : UInt16}
  {text line : List UInt8}

/-- The buffer stands for this program: it has the records of its lines and no other byte below the
end of the program, and all that looks for lines finds them. -/
structure Represents (m : Memory) (l : Listing) : Prop where
  programEnd_eq : m.programEnd = extent l.lines
  program_eq : m.program = records l.lines
  lines_eq : m.lines = .ok l.lines
  linesFrom_eq : ∀ number, m.linesFrom number = .ok (l.onward number)
  /-- The first line from the number on, or the end of the program. -/
  findLine_eq : ∀ number, ∃ address, m.findLine number = .ok address ∧
    match l.onward number with
    | [] => address = m.programEnd
    | line :: _ => l.StartsAt line address
  free_eq : m.free = .ok (m.variablesBegin - extent l.lines)

theorem Sound.represents (h : m.Sound l frames) : m.Represents l := by
  refine ⟨h.holds.programEnd_eq, h.holds.program_eq h.programEnd_le, lines_eq h.layout h.holds,
    linesFrom_eq h.layout h.holds, fun number => ⟨_, findLine_eq h.layout h.holds number, ?_⟩,
    free_eq_extent h.layout h.holds⟩
  have hparts := l.below_append_onward number
  split
  case h_1 hnone =>
    rw [hnone, List.append_nil] at hparts
    rw [hparts, h.holds.programEnd_eq]
  case h_2 line rest hfirst =>
    rw [hfirst] at hparts
    exact ⟨_, rest, hparts.symm, rfl⟩

theorem Represents.eq {l' : Listing} (h : m.Represents l) (h' : m.Represents l') : l' = l :=
  Listing.ext (Except.ok.inj (h'.lines_eq.symm.trans h.lines_eq))

/-- The buffers that a sequence of `upsert` leads to, whether or not each one goes through. -/
inductive Upserted (first : Memory) : Memory → Prop
  | start : Upserted first first
  | stored {m m' : Memory} {number : UInt16} {text : List UInt8} {edit : Edit} :
      Upserted first m → upsert number text m = .ok edit m' → Upserted first m'
  | refused {m m' : Memory} {number : UInt16} {text : List UInt8} {h : Halt} :
      Upserted first m → upsert number text m = .error h m' → Upserted first m'

/-- An `upsert` sets a line, or it is refused and leaves the buffer as it was. -/
theorem upsert_ends (h : m.Sound l frames) (number : UInt16) (text : List UInt8) :
    Ends (upsert number text m)
      (fun _ m' => ∃ ha : m.Accepts number text, ∃ frames',
        m'.Sound (l.put number text ha.storable) frames')
      fun _ m' => ¬ m.Accepts number text ∧ m' = m := by
  by_cases ha : m.Accepts number text
  · obtain ⟨edit, m', hrun, hsound, -⟩ := upsert_merged h ha
    exact Ends.of_ok hrun ⟨ha, _, hsound⟩
  · obtain ⟨e, hrun⟩ := upsert_error h.layout ha
    rw [hrun]
    exact ⟨ha, rfl⟩

theorem Upserted.exists_sound {ramSize stackFrames : UInt64}
    (h : Upserted (create ramSize stackFrames) m) :
    ∃ l frames, m.Sound l frames := by
  induction h with
  | start => exact ⟨_, _, sound_create ramSize stackFrames⟩
  | @stored m m' number text edit _ hrun ih =>
    obtain ⟨l, frames, hsound⟩ := ih
    have hends := upsert_ends hsound number text
    rw [hrun] at hends
    obtain ⟨ha, frames', hsound'⟩ := hends
    exact ⟨_, _, hsound'⟩
  | @refused m m' number text h _ hrun ih =>
    obtain ⟨l, frames, hsound⟩ := ih
    have hends := upsert_ends hsound number text
    rw [hrun] at hends
    obtain ⟨-, rfl⟩ := hends
    exact ⟨_, _, hsound⟩

/-- A line 1 and a line 2 that there is room for can be stored one after the other. -/
theorem Upserted.exists_two (ramSize stackFrames : UInt64) {first second : List UInt8}
    (hfirst : Storable 1 first) (hsecond : Storable 2 second) (hne : first ≠ [])
    (hne' : second ≠ [])
    (hroom : first.length + second.length + 12 ≤ (create ramSize stackFrames).variablesBegin) :
    ∃ m l frames, Upserted (create ramSize stackFrames) m ∧ m.Sound l frames ∧
      m.variablesBegin = (create ramSize stackFrames).variablesBegin ∧
      l.lines = [⟨1, first⟩, ⟨2, second⟩] := by
  have hsound := sound_create ramSize stackFrames
  have hstart : Upserted (create ramSize stackFrames) _ := .start
  generalize create ramSize stackFrames = start at *
  have hend : start.programEnd = 0 := hsound.holds.programEnd_eq
  have haccepts : start.Accepts 1 first := ⟨hfirst, by omega⟩
  obtain ⟨edit, m, hrun, hsound', hv⟩ := upsert_merged hsound haccepts
  have hlines : (Listing.empty.put 1 first hfirst).lines = [⟨1, first⟩] := by
    rw [Listing.lines_put, Listing.entry, if_neg hne]
    rfl
  generalize Listing.empty.put 1 first hfirst = l at hsound' hlines
  have hend' : m.programEnd = first.length + 4 := by
    rw [hsound'.holds.programEnd_eq, hlines]
    rfl
  have haccepts' : m.Accepts 2 second := ⟨hsecond, by omega⟩
  obtain ⟨edit', m', hrun', hsound'', hv'⟩ := upsert_merged hsound' haccepts'
  exact ⟨m', _, _, (hstart.stored hrun).stored hrun', hsound'', hv'.trans hv,
    Listing.below_entry_above hlines hne'⟩

/-- What a numbered line leaves: it sets a line if it can be stored and the program that results
leaves four bytes below `top`, and otherwise the program is as it was. -/
def Entered (m : Memory) (l : Listing) (top : Nat) (line : List UInt8) : Prop :=
  (Storable (entryNumber line) (entryText line) ∧ l.Fits top (entryNumber line) (entryText line) ∧
    ∃ l', m.Represents l' ∧ l.Sets (entryNumber line) (entryText line) l') ∨
  (¬ (Storable (entryNumber line) (entryText line) ∧
    l.Fits top (entryNumber line) (entryText line)) ∧
    m.Represents l)

theorem Sound.entered {top : Nat} (h : m.Sound (Session.entered l top line) frames) :
    m.Entered l top line := by
  by_cases hfit : Storable (entryNumber line) (entryText line) ∧
    l.Fits top (entryNumber line) (entryText line)
  · rw [Session.entered, Listing.enter_of_fits hfit.1 hfit.2] at h
    exact Or.inl ⟨hfit.1, hfit.2, _, h.represents, l.sets_put hfit.1⟩
  · rw [Session.entered, Listing.enter_of_not hfit] at h
    exact Or.inr ⟨hfit, h.represents⟩

end Memory

namespace Session
variable {σ : Type} [Host σ] {s : Session σ} {l l' : Listing} {frames : List Frame}
  {line : List UInt8}

/-- From the prompt or a restart no step that a line takes changes the program. -/
theorem drive_sound {phase : Phase} (hs : s.interpreter.memory.Sane l frames)
    (hp : phase = .prompt ∨ phase = .restart) (steps : Nat) :
    Ends (drive Phase.awaitsCommand steps phase s)
      (fun _ s' => ∃ frames', s'.interpreter.memory.Sound l frames')
      fun _ s' => ∃ frames', s'.interpreter.memory.Sound l frames' := by
  induction steps generalizing phase s frames with
  | zero => exact ⟨frames, hs.toSound⟩
  | succ steps ih =>
    refine drive_succ (fun _ => ⟨frames, hs.toSound⟩) fun hrest => ?_
    obtain rfl | rfl := hp
    · cases hrest
    · refine (takes_restart_prompt s hs).mono (fun phase s' h => ?_) fun _ _ h => ⟨[], h.2.toSound⟩
      exact ih h.2 (Or.inl h.1)

/-- A numbered line is stored or refused, and what follows changes nothing more. -/
theorem enter_sound (hs : s.interpreter.memory.Sane l frames) (steps : Nat)
    (hn : entryNumber (s.interpreter.memory.cutLine line) ≠ 0) :
    Ends (enter steps line s)
      (fun _ s' => ∃ frames', s'.interpreter.memory.Sound
        (entered l s.interpreter.memory.variablesBegin (s.interpreter.memory.cutLine line)) frames')
      fun _ s' => ∃ frames', s'.interpreter.memory.Sound
        (entered l s.interpreter.memory.variablesBegin (s.interpreter.memory.cutLine line))
        frames' := by
  refine Ends.bind ((submit_ends line hs).mono (fun _ _ h => h) fun h s' hh => ?_) fun phase s' h =>
    ?_
  · obtain ⟨-, frames', hsane, -⟩ := hh
    exact ⟨frames', hsane.toSound⟩
  · obtain ⟨hanswered, frames', hready, -⟩ := h
    have hphase : phase = .prompt ∨ phase = .restart := by
      obtain ⟨hzero, -⟩ | ⟨-, hp⟩ | ⟨-, -, hp⟩ | ⟨-, -, hp⟩ := hanswered
      · exact absurd hzero hn
      · exact Or.inl hp
      · exact Or.inl hp
      · exact Or.inr hp
    exact drive_sound hready.sane hphase steps

theorem enter_ends (hs : s.interpreter.memory.Sane l frames) (steps : Nat)
    (hn : entryNumber (s.interpreter.memory.cutLine line) ≠ 0) :
    Ends (enter steps line s)
      (fun _ s' => s'.interpreter.memory.Entered l s.interpreter.memory.variablesBegin
        (s.interpreter.memory.cutLine line))
      fun _ s' => s'.interpreter.memory.Entered l s.interpreter.memory.variablesBegin
        (s.interpreter.memory.cutLine line) :=
  (enter_sound hs steps hn).mono (fun _ _ ⟨_, h⟩ => h.entered) fun _ _ ⟨_, h⟩ => h.entered

end Session

/-- The settings of a buffer that has 460 bytes below the variables. -/
def Settings.small : Settings := { ramSize := 1024, stackFrames := 100 }

/-- A text as long as that of a line can be. -/
def longText : List UInt8 := List.replicate 251 (byte 'A')

theorem extent_two (number number' : UInt16) (text : List UInt8) :
    extent [⟨number, longText⟩, ⟨number', text⟩] = 259 + text.length := by
  simp only [extent, longText, List.length_replicate]
  omega

/-- In a small session a line 1 can be entered that is as long as a line can be. -/
theorem History.exists_long : ∃ past, ∃ s : Session Script, ∃ l frames,
    History (Session.start .small {} none) past (.idle s) ∧ s.interpreter.memory.Sane l frames ∧
      s.interpreter.memory.variablesBegin = 460 ∧ l.lines = [⟨1, longText⟩] := by
  have hs := Session.sane_start .small ({} : Script) none
  have hv : (Session.start .small ({} : Script) none).interpreter.memory.variablesBegin =
      460 := by decide
  have hstart : History (Session.start .small ({} : Script) none) []
      (.idle (Session.start .small {} none)) := .start
  generalize Session.start .small ({} : Script) none = first at *
  have hcut : first.interpreter.memory.cutLine (byte '1' :: longText) = byte '1' :: longText := by
    rw [Memory.cutLine_eq _ (by decide +kernel), Memory.entryRoom_eq hs.layout,
      hs.holds.programEnd_eq, hv]
    decide +kernel
  have hnumber : entryNumber (first.interpreter.memory.cutLine (byte '1' :: longText)) = 1 := by
    rw [hcut]
    decide
  have htext : entryText (first.interpreter.memory.cutLine (byte '1' :: longText)) = longText := by
    rw [hcut]
    decide +kernel
  have hfit : Listing.empty.Fits first.interpreter.memory.variablesBegin 1 longText := by
    rw [hv]
    decide +kernel
  obtain ⟨s, hrun, hv', hstorable, frames, hs'⟩ :=
    Session.submit_stored _ hs hnumber htext (by decide) (by decide) hfit
  exact ⟨_, s, _, frames, (hstart.next (.enter hrun)).next (.rest rfl), hs', hv'.trans hv, rfl⟩

theorem History.exists_nearly_full (text : List UInt8) (hne : text ≠ [])
    (hlength : text.length ≤ 197) (hline : ∀ b ∈ text, b ≠ Byte.carriageReturn ∧ b ≠ Byte.marker)
    (hnumber : entryNumber (byte '2' :: text) = 2) (htext : entryText (byte '2' :: text) = text) :
    ∃ past, ∃ s : Session Script, ∃ l frames, History (Session.start .small {} none)
      past (.idle s) ∧
      s.interpreter.memory.Sane l frames ∧
      s.interpreter.memory.variablesBegin - s.interpreter.memory.programEnd = 201 - text.length ∧
      l.lines = [⟨1, longText⟩, ⟨2, text⟩] := by
  obtain ⟨past, s, l, frames, hpast, hs, hv, hlines⟩ := exists_long
  have hend : s.interpreter.memory.programEnd = 255 := by
    rw [hs.holds.programEnd_eq, hlines]
    decide +kernel
  have hcut : s.interpreter.memory.cutLine (byte '2' :: text) = byte '2' :: text := by
    rw [Memory.cutLine_eq _ ?_, Memory.entryRoom_eq hs.layout, hend, hv, List.take_of_length_le]
    · rw [List.length_cons]
      omega
    · intro b hb
      rcases List.mem_cons.1 hb with rfl | hb
      · decide
      · exact hline b hb
  have hlines' := Listing.below_entry_above hlines hne
  have hfit : l.Fits s.interpreter.memory.variablesBegin 2 text := by
    rw [Listing.Fits, hlines', hv, extent_two]
    omega
  obtain ⟨s', hrun, hv', hstorable, frames', hs'⟩ := Session.submit_stored (byte '2' :: text) hs
    (by rw [hcut, hnumber]) (by rw [hcut, htext]) (by decide) (by decide) hfit
  refine ⟨_, s', _, frames', (hpast.next (.enter hrun)).next (.rest rfl), hs', ?_, hlines'⟩
  rw [hs'.holds.programEnd_eq, Listing.lines_put, hlines', hv', hv, extent_two]
  omega

/-- The line store is a sorted map. Every buffer that a sequence of `upsert` leads to, and every
buffer of a session, is the records of a map in ascending order, and what looks for lines finds
them. An `upsert` that goes through sets one line of the map, and so does a numbered line; one that
does not leaves the map as it was. -/
theorem line_store_sorted_map :
    (∀ (ramSize stackFrames : UInt64) (m : Memory),
      Memory.Upserted (.create ramSize stackFrames) m →
      ∃ l, m.Represents l ∧ ∀ number text, Ends (Memory.upsert number text m)
        (fun _ m' => m.Accepts number text ∧ ∃ l', m'.Represents l' ∧ l.Sets number text l')
        fun _ m' => ¬ m.Accepts number text ∧ m' = m) ∧
    ∀ {σ : Type} [Host σ] (settings : Settings) (host : σ) (threshold : Option Severity)
      (past : List (Moment σ)) (M : Moment σ), History
        (Session.start settings host threshold) past M →
      ∃ l, M.memory.Represents l ∧ ∀ s, M = .idle s →
      ∀ line, entryNumber (M.memory.cutLine line) ≠ 0 →
        Ends (Session.submit line s)
          (fun phase _ => Session.Answered l M.memory.variablesBegin (M.memory.cutLine line) phase)
            (fun _ _ => True) ∧
        ∀ steps, Ends (Session.enter steps line s)
          (fun _ s' => s'.interpreter.memory.Entered l M.memory.variablesBegin
            (M.memory.cutLine line))
          fun _ s' => s'.interpreter.memory.Entered l M.memory.variablesBegin
            (M.memory.cutLine line) := by
  refine ⟨fun ramSize stackFrames m h => ?_, fun settings host threshold past M h => ?_⟩
  · obtain ⟨l, frames, hsound⟩ := h.exists_sound
    refine ⟨l, hsound.represents, fun number text => (Memory.upsert_ends hsound number text).mono ?_
      fun _ _ h => h⟩
    rintro edit m' ⟨ha, frames', hsound'⟩
    exact ⟨ha, _, hsound'.represents, l.sets_put ha.storable⟩
  · obtain ⟨l, frames, hready⟩ := h.exists_ready
    refine ⟨l, hready.sane.toSound.represents, ?_⟩
    rintro s rfl line hn
    refine ⟨?_, fun steps => Session.enter_ends hready steps hn⟩
    exact (Session.submit_ends line hready).mono (fun _ _ h => h.1) fun _ _ _ => trivial

/-- A line is replaced by `upsert`, and one by a line that is entered and is cut to the room there
is. -/
theorem line_store_of_lines :
    (∃ m l, Memory.Upserted (.create 1024 5) m ∧ m.Represents l ∧
      l.lines = [⟨1, ascii "LET A=1"⟩, ⟨2, ascii "END"⟩] ∧
      ∃ edit m', Memory.upsert 1 (ascii "PRINT") m = .ok edit m' ∧
        ∃ l', m'.Represents l' ∧ l.Sets 1 (ascii "PRINT") l') ∧
    ∃ s : Session Script, ∃ l, s.interpreter.memory.Represents l ∧
      l.lines = [⟨1, longText⟩, ⟨2, List.replicate 189 (byte 'B')⟩] ∧
      Ends (Session.enter 1 (ascii "2PRINTABCD") s)
        (fun _ s' => ∃ l', s'.interpreter.memory.Represents l' ∧ l.Sets 2 (ascii "PRINTAB") l')
        fun _ s' => ∃ l', s'.interpreter.memory.Represents l' ∧ l.Sets 2 (ascii "PRINTAB") l' := by
  constructor
  · have hfirst : Storable 1 (ascii "LET A=1") := by decide
    have hsecond : Storable 2 (ascii "END") := by decide
    obtain ⟨m, l, frames, hm, hsound, hv, hlines⟩ :=
      Memory.Upserted.exists_two 1024 5 hfirst hsecond (by decide) (by decide) (by decide)
    have haccepts : m.Accepts 1 (ascii "PRINT") := by
      refine ⟨by decide, ?_⟩
      rw [hv, hsound.holds.programEnd_eq, hlines]
      decide
    obtain ⟨l', hrepresents, hupsert⟩ := line_store_sorted_map.1 1024 5 m hm
    obtain rfl := hsound.represents.eq hrepresents
    have hends := hupsert 1 (ascii "PRINT")
    refine ⟨m, l', hm, hrepresents, hlines, ?_⟩
    cases hrun : Memory.upsert 1 (ascii "PRINT") m with
    | ok edit m' =>
      rw [hrun] at hends
      exact ⟨edit, m', rfl, hends.2⟩
    | error e m' =>
      rw [hrun] at hends
      exact absurd haccepts hends.1
  · obtain ⟨past, s, l, frames, hpast, hs, hroom, hlines⟩ := History.exists_nearly_full
      (List.replicate 189 (byte 'B')) (by decide) (by decide +kernel) (by decide +kernel)
        (by decide +kernel) (by decide +kernel)
    have hcut : s.interpreter.memory.cutLine (ascii "2PRINTABCD") = ascii "2PRINTAB" := by
      rw [Memory.cutLine_eq _ (by decide), Memory.entryRoom_eq hs.layout, hroom,
        List.length_replicate]
      decide
    obtain ⟨l', hrepresents, hline⟩ := line_store_sorted_map.2 .small {} none past (.idle s) hpast
    obtain rfl := hs.represents.eq hrepresents
    have hentered := hline s rfl (ascii "2PRINTABCD")
    rw [show (Moment.idle s).memory.cutLine (ascii "2PRINTABCD") =
      ascii "2PRINTAB" from hcut] at hentered
    have hextent := hs.holds.programEnd_eq
    rw [hlines, extent_two, List.length_replicate] at hextent
    rw [List.length_replicate] at hroom
    have hfit : l'.Fits s.interpreter.memory.variablesBegin 2 (ascii "PRINTAB") := by
      rw [show s.interpreter.memory.variablesBegin = 460 by omega, Listing.Fits, Listing.below,
        Listing.above, hlines]
      decide +kernel
    have hstored {m : Memory} (h : m.Entered l' s.interpreter.memory.variablesBegin
      (ascii "2PRINTAB")) :
        ∃ l'', m.Represents l'' ∧ l'.Sets 2 (ascii "PRINTAB") l'' := by
      obtain ⟨-, -, hset⟩ | ⟨hrefused, -⟩ := h
      · exact hset
      · exact absurd ⟨by decide, hfit⟩ hrefused
    exact ⟨s, l', hrepresents, hlines, ((hentered (by decide)).2 1).mono (fun _ _ h => hstored h)
      fun _ _ h => hstored h⟩

end LineBasic
