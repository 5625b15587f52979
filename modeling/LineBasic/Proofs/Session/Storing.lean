import LineBasic.Proofs.Memory.Kin
import LineBasic.Proofs.Session.Numbered

namespace LineBasic

theorem Case.foldFrom_front {p t : List UInt8} (h : p <+: t) (quote : Option UInt8) :
    foldFrom quote p <+: foldFrom quote t := by
  induction p generalizing t quote with
  | nil => exact List.nil_prefix
  | cons b rest ih =>
    obtain ⟨back, rfl⟩ := h
    have hrest := fun quote => ih (List.prefix_append rest back) quote
    cases quote with
    | some q => exact (List.prefix_cons_inj b).2 (hrest _)
    | none =>
      simp only [List.cons_append, foldFrom]
      split
      · exact (List.prefix_cons_inj _).2 (hrest _)
      · exact (List.prefix_cons_inj _).2 (hrest _)

namespace Lexeme
variable {p t : List UInt8}

theorem skipBlanks_front (h : p <+: t) : skipBlanks p <+: skipBlanks t := by
  obtain ⟨back, rfl⟩ := h
  unfold skipBlanks
  rw [List.dropWhile_append]
  split
  case isTrue hnone => exact List.isEmpty_iff.1 hnone ▸ List.nil_prefix
  case isFalse => exact List.prefix_append _ _

/-- The front of a text has the same number, or ends before the number does. -/
theorem lineNumberFrom_front (h : p <+: t) (n : Nat) :
    (lineNumberFrom n p).2 = [] ∨ (lineNumberFrom n p).1 = (lineNumberFrom n t).1 := by
  obtain ⟨back, rfl⟩ := h
  fun_induction lineNumberFrom n p with
  | case1 n => exact Or.inl rfl
  | case2 n d rest hd hn =>
    exact Or.inr (by rw [List.cons_append, lineNumberFrom, if_pos hd, if_pos hn])
  | case3 n d rest hd hn ih => rwa [List.cons_append, lineNumberFrom, if_pos hd, if_neg hn]
  | case4 n d rest hd => exact Or.inr (by rw [List.cons_append, lineNumberFrom, if_neg hd])

theorem lineNumber_front (h : p <+: t) :
    (lineNumber p).2 = [] ∨ (lineNumber p).1 = (lineNumber t).1 := by
  exact (lineNumberFrom_front (skipBlanks_front h) 0).imp_right (congrArg Nat.toUInt16)

end Lexeme

/-- What is left of a numbered line that is cut has a number, or no text. -/
theorem entryNumber_front {cut line : List UInt8} (h : cut <+: line) (hn : entryNumber line ≠ 0) :
    entryNumber cut ≠ 0 ∨ entryText cut = [] := by
  obtain hnone | hsame := Lexeme.lineNumber_front (Case.foldFrom_front h none)
  · exact Or.inr (congrArg Lexeme.skipBlanks hnone)
  · exact Or.inl fun hz => hn (hsame.symm.trans hz)

namespace Memory
variable {m m' : Memory} {l l' : Listing} {frames frames' : List Frame} {v : Variable}

theorem cutLine_front (m : Memory) (bytes : List UInt8) : m.cutLine bytes <+: bytes :=
  (List.take_prefix _ _).trans (List.takeWhile_prefix _)

theorem OnlyGap.value_eq (h : m.OnlyGap m') (hm : m.Layout) : m'.value v = m.value v := by
  have hlimit := Nat.le_trans hm.limit_le hm.top_le
  exact value_eq_of_below hm h.variablesBegin_eq (h.above.mono (Nat.le_refl _) hlimit)

theorem Merged.value_eq (h : Merged m m' l l' frames frames') (hm : m.Layout) :
    m'.value v = m.value v :=
  value_eq_of_below hm h.variablesBegin_eq h.above

end Memory

structure Interpreter.Undisturbed (i j : Interpreter) : Prop where
  sane : ∃ l, j.memory.Sane l []
  value_eq : ∀ v, j.memory.value v = i.memory.value v
  generator_eq : j.generator = i.generator

theorem Interpreter.Undisturbed.trans {i j k : Interpreter} (h : i.Undisturbed j)
    (h' : j.Undisturbed k) :
    i.Undisturbed k :=
  ⟨h'.sane, fun v => (h'.value_eq v).trans (h.value_eq v), h'.generator_eq.trans h.generator_eq⟩

namespace Session
variable {σ : Type} [Host σ] {s : Session σ} {l : Listing} {line : List UInt8}

theorem report_undisturbed {i : Interpreter} (h : i.Undisturbed s.interpreter) (e : Error) :
    Ends (report e s) (fun phase s' => (phase = .prompt ∨ phase = .restart) ∧
      i.Undisturbed s'.interpreter)
      fun _ s' => i.Undisturbed s'.interpreter := by
  obtain ⟨l, hsane⟩ := h.sane
  refine (concludes_report e s hsane.layout).mono (fun phase s' hr => ?_) fun _ s' hr => hr.1 ▸ h
  obtain ⟨-, hp, hj⟩ | ⟨-, hp, hj⟩ := hr
  · exact ⟨Or.inr hp, hj ▸ h⟩
  · rw [hj]
    exact ⟨Or.inl hp, h.sane, h.value_eq, h.generator_eq⟩

theorem accept_undisturbed (hs : s.interpreter.memory.Sane l [])
    (ht : s.interpreter.memory.Typed line) (hn : entryNumber line ≠ 0) :
    Ends (accept s)
      (fun phase s' => (phase = .prompt ∨ phase = .restart) ∧
        s.interpreter.Undisturbed s'.interpreter)
      fun _ s' => s.interpreter.Undisturbed s'.interpreter := by
  have hm := hs.layout
  have hgap := ht.onlyGap_taken hm
  have htaken : s.interpreter.Undisturbed (s.taken line).interpreter :=
    ⟨⟨l, hs.onlyGap hgap⟩, fun _ => hgap.value_eq hm, rfl⟩
  obtain ⟨hzero, -⟩ | ⟨e, -, hrun⟩ | ⟨_, m, journal, -, hrun, hmerged⟩ := accept_cases hs.toSound ht
  · exact absurd hzero hn
  · rw [hrun]
    exact report_undisturbed htaken e
  · have hmerge := (hs.onlyGap hgap).merged hmerged
    rw [Memory.Edit.unstack, ite_self] at hmerge
    exact Ends.of_ok hrun ⟨Or.inl rfl, ⟨_, hmerge⟩,
      fun v => (hmerged.value_eq (hgap.layout hm)).trans (hgap.value_eq hm), rfl⟩

theorem drive_undisturbed {phase : Phase} (hs : s.interpreter.memory.Sane l [])
    (hp : phase = .prompt ∨ phase = .restart) (steps : Nat) :
    Ends (drive Phase.awaitsCommand steps phase s)
      (fun _ s' => s.interpreter.Undisturbed s'.interpreter)
      fun _ s' => s.interpreter.Undisturbed s'.interpreter := by
  have hself : s.interpreter.Undisturbed s.interpreter := ⟨⟨l, hs⟩, fun _ => rfl, rfl⟩
  induction steps generalizing phase s with
  | zero => exact hself
  | succ steps ih =>
    refine drive_succ (fun _ => hself) fun hrest => ?_
    obtain rfl | rfl := hp
    · cases hrest
    · have hreleased : s.interpreter.Undisturbed s.interpreter.released :=
        ⟨⟨l, hs.released⟩, fun _ => rfl, rfl⟩
      refine (restart_ends hs.layout).mono (fun phase s' h => ?_) fun _ _ h => h.2 ▸ hreleased
      obtain ⟨rfl, hj⟩ := h
      have hsane : s'.interpreter.memory.Sane l [] := hj ▸ hs.released
      have hafter : s.interpreter.Undisturbed s'.interpreter := hj ▸ hreleased
      exact (ih hsane (Or.inl rfl) ⟨⟨l, hsane⟩, fun _ => rfl, rfl⟩).mono
        (fun _ _ h => hafter.trans h)
        fun _ _ h => hafter.trans h

/-- Entering a numbered line leaves the variables, the generator and the empty stack. -/
theorem enter_undisturbed (hs : s.interpreter.memory.Sane l []) (hn : entryNumber line ≠ 0)
    (steps : Nat) :
    Ends (enter steps line s) (fun _ s' => s.interpreter.Undisturbed s'.interpreter)
      fun _ s' => s.interpreter.Undisturbed s'.interpreter := by
  have hm := hs.layout
  have hgap := Memory.onlyGap_placed line hm
  have htyped := Memory.typed_placed line hm
  have hplaced : s.interpreter.Undisturbed { s.interpreter with
      memory := s.interpreter.memory.placed (s.interpreter.memory.cutLine line)
      directText := none } := ⟨⟨l, hs.onlyGap hgap⟩, fun _ => hgap.value_eq hm, rfl⟩
  by_cases hcut : entryNumber (s.interpreter.memory.cutLine line) = 0
  · have htext := (entryNumber_front (s.interpreter.memory.cutLine_front line) hn).resolve_left
      fun h => h hcut
    have hsound := hs.toSound.onlyGap hgap
    have hgap' := htyped.onlyGap_taken hsound.layout
    refine Ends.after_ok ((submit_eq line hm).trans (accept_direct hsound htyped hcut)) ?_
    refine (drive_blank ?_ steps).mono (fun _ s' h => ?_) fun _ _ h => absurd h id
    · exact htyped.atEndOfLine_taken hsound.layout htext
    · rw [h]
      exact hplaced.trans ⟨⟨l, (hs.onlyGap hgap).onlyGap hgap'⟩, fun _ => hgap'.value_eq
        hsound.layout, rfl⟩
  · have haccept := accept_undisturbed (s := { s with interpreter := { s.interpreter with
      memory := s.interpreter.memory.placed (s.interpreter.memory.cutLine line)
      directText := none } }) (hs.onlyGap hgap) htyped hcut
    rw [← submit_eq line hm] at haccept
    refine Ends.bind (haccept.mono (fun _ _ h => h) fun _ _ h => hplaced.trans h) fun phase s' h =>
      ?_
    obtain ⟨hp, hafter⟩ := h
    obtain ⟨l', hsane⟩ := hafter.sane
    exact (drive_undisturbed hsane hp steps).mono (fun _ _ h => hplaced.trans (hafter.trans h))
      fun _ _ h => hplaced.trans (hafter.trans h)

theorem enters_undisturbed {lines : List (List UInt8)} (hs : s.interpreter.memory.Sane l [])
    (hn : ∀ line ∈ lines, entryNumber line ≠ 0) (steps : Nat) :
    Ends (lines.mapM (enter steps) s) (fun _ s' => s.interpreter.Undisturbed s'.interpreter)
      fun _ s' => s.interpreter.Undisturbed s'.interpreter := by
  induction lines generalizing s l with
  | nil => exact ⟨⟨l, hs⟩, fun _ => rfl, rfl⟩
  | cons line rest ih =>
    rw [List.mapM_cons]
    refine Ends.bind (enter_undisturbed hs (hn line List.mem_cons_self) steps) fun phase s' h => ?_
    obtain ⟨l', hsane⟩ := h.sane
    refine Ends.bind ((ih hsane fun line hm => hn line (List.mem_cons_of_mem _ hm)).mono
      (fun _ _ h => h)
      fun _ _ h' => h.trans h') fun phases s'' h' => ?_
    exact h.trans h'

end Session
end LineBasic
