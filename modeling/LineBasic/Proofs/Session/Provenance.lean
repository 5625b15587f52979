import LineBasic.Proofs.Session.Failure
import LineBasic.Proofs.Session.OneLine

namespace LineBasic
variable {σ : Type}

section
variable [Host σ] {typed : List UInt8}

/-- This line is taken from the one moment to the next: it is submitted, or it has been typed and is
ended. -/
inductive Moment.Accepts (typed : List UInt8) : Moment σ → Moment σ → Prop
  | submitted {s s' : Session σ} {line : List UInt8} {phase : Phase}
    (hrun : Session.submit line s = .ok phase s')
      (he : s.interpreter.memory.cutLine line = typed) : Accepts typed (.idle s)
        (.busy .enter phase s')
  | ended {call : Call} {pos : Nat} {s s' : Session σ} {phase : Phase}
      (hrun : Session.step (.edit .command pos) s = .ok phase s')
        (hp : ∀ pos', phase ≠ .edit .command pos')
      (he : s.interpreter.memory.typedLine pos = typed) :
      Accepts typed (.busy call (.edit .command pos) s) (.busy call phase s')

/-- The line was taken at one of these moments, the latest of which comes first. -/
def Taken (typed : List UInt8) (moments : List (Moment σ)) : Prop :=
  ∃ after Q P before, moments = after ++ Q :: P :: before ∧ P.Accepts typed Q

theorem Taken.cons {moments : List (Moment σ)} (h : Taken typed moments) (M : Moment σ) :
    Taken typed (M :: moments) := by
  obtain ⟨after, Q, P, before, rfl, haccepts⟩ := h
  exact ⟨M :: after, Q, P, before, rfl, haccepts⟩

end

theorem Memory.Holds.eq {m : Memory} {l l' : Listing} (h : m.Holds l) (h' : m.Holds l')
    (hm : m.Layout) : l' = l := by
  have hlines := (Memory.lines_eq hm h').symm.trans (Memory.lines_eq hm h)
  exact Listing.ext (Except.ok.inj hlines)

namespace Session
variable [Host σ] {l : Listing} {frames : List Frame} {s : Session σ} {line : List UInt8}

/-- What a line leads to that is taken: none is being typed, execution is in no stored line, and the
line is entered into the program. Where the host fails nothing has been entered. -/
def Enters (l : Listing) (top : Nat) (line : List UInt8)
    (r : EStateM.Result Halt (Session σ) Phase) : Prop :=
  Ends r
    (fun phase t => phase ∈ [.direct, .prompt, .restart] ∧
      (phase = .direct → t.interpreter.currentLine = none) ∧
      t.interpreter.memory.Holds (entered l top line))
    fun _ t => t.interpreter.memory.Holds l

theorem accept_enters (hs : s.interpreter.memory.Sane l frames)
    (ht : s.interpreter.memory.Typed line) :
    Enters l s.interpreter.memory.variablesBegin line (accept s) := by
  have htaken : (s.taken line).interpreter.memory.Sane l frames :=
    hs.onlyGap (ht.onlyGap_taken hs.layout)
  unfold Enters entered
  obtain ⟨hzero, hrun⟩ | ⟨e, hrefused, hrun⟩ | ⟨hstorable, m, journal, hfit, hrun, hmerged⟩ :=
    accept_cases hs.toSound ht
  · rw [Listing.enter_of_not fun h => h.1.number_ne_zero hzero]
    exact Ends.of_ok hrun ⟨by decide, fun _ => rfl, htaken.holds⟩
  · rw [Listing.enter_of_not hrefused, hrun]
    refine (report_ends e htaken.layout).mono (fun phase t h => ?_) fun _ t h => h.2 ▸ htaken.holds
    obtain ⟨rfl, hmemory⟩ := h
    have hnot : e.category.leadsTo ≠ .direct := by cases e.category <;> decide
    refine ⟨?_, fun hd => absurd hd hnot, hmemory ▸ htaken.holds⟩
    cases e.category <;> decide
  · rw [Listing.enter_of_fits hstorable hfit]
    exact Ends.of_ok hrun ⟨by decide, fun hd => absurd hd (by decide), hmerged.sound.holds⟩

theorem submit_enters (bytes : List UInt8) (hs : s.interpreter.memory.Sane l frames) :
    Enters l s.interpreter.memory.variablesBegin (s.interpreter.memory.cutLine bytes)
      (submit bytes s) := by
  rw [submit_eq bytes hs.layout]
  have hgap := Memory.onlyGap_placed bytes hs.layout
  exact accept_enters (hs.onlyGap hgap) (Memory.typed_placed bytes hs.layout)

theorem typeByte_enters {pos : Nat} (hs : s.interpreter.memory.Sane l frames)
    (hp : s.interpreter.memory.Typing pos) :
    Ends (typeByte .command pos s)
      (fun phase t => (∃ pos', phase = .edit .command pos') ∧ t.interpreter.memory.Holds l ∨
        phase ∈ [.direct, .prompt, .restart] ∧ (phase = .direct →
          t.interpreter.currentLine = none) ∧
          t.interpreter.memory.Holds (entered l s.interpreter.memory.variablesBegin
            (s.interpreter.memory.typedLine pos)))
      fun _ t => t.interpreter.memory.Holds l := by
  have hm := hs.layout
  have hbyte {j : Interpreter} (hj : TypedByte s.interpreter pos j) : j.memory.Holds l := by
    obtain rfl | ⟨b, rfl⟩ := hj
    · exact hs.holds
    · exact (hs.onlyGap (hp.onlyGap_typed hm b)).holds
  have htakes : Takes (· = s.interpreter)
      (fun phase j => (∃ pos', phase = .edit .command pos') ∧ j.memory.Holds l ∨
        phase ∈ [.direct, .prompt, .restart] ∧ (phase = .direct → j.currentLine = none) ∧
          j.memory.Holds (entered l s.interpreter.memory.variablesBegin
            (s.interpreter.memory.typedLine pos)))
      (fun j => j.memory.Holds l) (typeByte .command pos : Act σ Phase) := by
    refine takes_typeByte_of hm hp (fun j pos' hj _ _ => Or.inl ⟨⟨pos', rfl⟩, hbyte hj⟩)
      (fun j hj => hbyte hj) ?_
    intro t ht
    have hmarked : t.interpreter.memory.Sane l frames :=
      ht ▸ hs.onlyGap (hp.onlyGap_typed hm Byte.marker)
    have htyped : t.interpreter.memory.Typed (s.interpreter.memory.typedLine pos) :=
      ht ▸ hp.typed_marker hm
    have hends := accept_ends hmarked htyped
    have henters := accept_enters hmarked htyped
    have hv : t.interpreter.memory.variablesBegin = s.interpreter.memory.variablesBegin := ht ▸ rfl
    rw [hv] at henters
    unfold Enters at henters
    exact (hends.and henters).mono (fun _ _ h => Or.inr h.2) fun _ _ h => ⟨h.1.1, h.2⟩
  exact (htakes s rfl).mono (fun _ _ h => h) fun _ _ h => h.2

end Session

section
variable [Host σ] {l l' : Listing} {frames frames' : List Frame} {M M' : Moment σ}
  {past : List (Moment σ)}

end
end LineBasic
