import LineBasic.Proofs.Session.Effect

namespace LineBasic

namespace Memory
variable {m m' : Memory} {l : Listing} {frames : List Frame}

theorem Marked.congr (h : m.Marked) (hv : m'.variablesBegin = m.variablesBegin)
    (ha : m'.ram[m.variablesBegin - 1]? = m.ram[m.variablesBegin - 1]?) : m'.Marked := by
  rw [Marked, hv, ha]
  exact h

namespace Sound

theorem agree_stored (h : m.Sound l frames) (v : Variable) (x : Int16) :
    Agree m.ram (m.stored v x).ram 0 m.variablesBegin := by
  have := store_fits (m := m) v x
  have := h.layout.variables_le_size
  exact agree_overwrite_below (by show _ ≤ m.size; omega) (Nat.le_add_right _ _)

theorem agree_pushed (h : m.Sound l frames) {frame : Frame}
    (hr : ¬ m.stackTop < m.stackLimit + frame.size) :
    Agree m.ram (m.pushed frame).ram 0 m.variablesBegin := by
  have := h.layout.variables_add
  have := h.layout.top_le
  have hlength := frame.length_encode
  exact agree_overwrite_below (by rw [hlength]; show _ ≤ m.size; omega) (by omega)

theorem agree_removed {before after : List Frame} {frame : Frame}
    (h : m.Sound l (before ++ frame :: after)) :
    Agree m.ram (m.removed (m.stackTop + depth before) frame).ram 0 m.variablesBegin := by
  have hdepth := h.depth_le
  have := h.layout.variables_add
  have := h.layout.limit_le
  intro i _ hi
  show (moved _ _ _ _)[i]? = _
  rw [getElem?_moved _ _ _ _ _ (by show _ ≤ m.size; omega) (by show _ ≤ m.size; omega),
    if_neg (by omega)]

/-- The marker below the variables is still there where nothing below the variables has changed. -/
theorem marked_congr (h : m.Sound l frames) (hm : m.Marked)
    (hv : m'.variablesBegin = m.variablesBegin) (ha : Agree m.ram m'.ram 0 m.variablesBegin) :
    m'.Marked := by
  have := h.layout.reserve
  exact hm.congr hv (ha _ (Nat.zero_le _) (by omega))

end Sound

namespace Executing

theorem stored (h : m.Executing l frames) (v : Variable) (x : Int16) :
    (m.stored v x).Executing l frames :=
  ⟨⟨h.toSound.stored v x, h.resumes⟩, h.marked_congr h.marked rfl (h.agree_stored v x)⟩

theorem pushed (h : m.Executing l frames) (frame : Frame)
    (hf : l.Resumes m.variablesBegin frame.line frame.pos)
    (hr : ¬ m.stackTop < m.stackLimit + frame.size) :
    (m.pushed frame).Executing l (frame :: frames) := by
  refine ⟨⟨h.toSound.pushed (h.savable hf.inside) hr, fun f hm => ?_⟩,
    h.marked_congr h.marked rfl (h.agree_pushed hr)⟩
  rcases List.mem_cons.1 hm with rfl | hm
  · exact hf
  · exact h.resumes f hm

theorem unstacked (h : m.Executing l frames) :
    ({ m with stackTop := m.size } : Memory).Executing l [] :=
  ⟨⟨h.toSound.unstacked, fun _ hf => absurd hf List.not_mem_nil⟩, h.marked⟩

section
variable {before after : List Frame} {frame : Frame} (h : m.Executing l (before ++ frame :: after))
include h

theorem removed : (m.removed (m.stackTop + depth before) frame).Executing l (before ++ after) := by
  refine ⟨⟨h.toSound.removed, fun f hm => h.resumes f ?_⟩, h.marked_congr h.marked rfl
    h.agree_removed⟩
  rcases List.mem_append.1 hm with hm | hm
  · exact List.mem_append_left _ hm
  · exact List.mem_append_right _ (List.mem_cons_of_mem _ hm)

theorem unwound :
    ({ m with stackTop := m.stackTop + depth before } : Memory).Executing l (frame :: after) :=
  ⟨⟨h.toSound.unwound, fun f hm => h.resumes f (List.mem_append_right _ hm)⟩, h.marked⟩

theorem dropped :
    ({ m with stackTop := m.stackTop + depth before + frame.size } : Memory).Executing l after :=
  ⟨⟨h.toSound.dropped, fun f hm => h.resumes f (List.mem_append_right _
    (List.mem_cons_of_mem _ hm))⟩,
    h.marked⟩

/-- The place that a frame of the stack saves is inside a line. -/
theorem inside_frame : l.Inside m.variablesBegin frame.line frame.pos :=
  (h.resumes frame (List.mem_append_right _ List.mem_cons_self)).inside

end
end Executing
end Memory

def Listing.Begins (l : Listing) (address : Nat) : Prop :=
  (∃ line, l.StartsAt line address) ∨ extent l.lines ≤ address

theorem Listing.begins_below (l : Listing) (number : UInt16) :
    l.Begins (extent (l.below number)) := by
  have hparts := l.below_append_onward number
  cases ho : l.onward number with
  | nil =>
    rw [ho, List.append_nil] at hparts
    exact Or.inr (hparts ▸ Nat.le_refl _)
  | cons line rest =>
    rw [ho] at hparts
    exact Or.inl ⟨line, _, rest, hparts.symm, rfl⟩

theorem Listing.begins_zero (l : Listing) : l.Begins 0 := by
  rcases he : l.lines with _ | ⟨line, rest⟩
  · exact Or.inr (he ▸ Nat.le_refl _)
  · exact Or.inl ⟨line, [], rest, he, rfl⟩

/-- After a line the next one begins, or the program has ended. -/
theorem Listing.StartsAt.begins_next {l : Listing} {line : Line} {address : Nat}
    (h : l.StartsAt line address) :
    l.Begins (address + (line.text.length + 4)) := by
  obtain ⟨before, after, he, rfl⟩ := h
  have hnext : extent before + (line.text.length + 4) = extent (before ++ [line]) := by
    rw [extent_append, extent_cons]
    rfl
  rw [hnext]
  rcases after with _ | ⟨following, rest⟩
  · exact Or.inr (he ▸ Nat.le_refl _)
  · exact Or.inl ⟨following, before ++ [line], rest, by rw [he, List.append_assoc]; rfl, rfl⟩

structure Memory.Typing (m : Memory) (pos : Nat) : Prop where
  le : m.entryStart ≤ pos
  lt : pos + 2 ≤ m.variablesBegin
  short : pos ≤ m.entryStart + Session.maxEntryLength

namespace Interpreter

def Asking (i : Interpreter) (l : Listing) (frames : List Frame) : Purpose → Prop
  | .command => i.memory.Sane l frames
  | .reply _ resume => { i with textPos := resume }.Running l frames

def Ready (i : Interpreter) (l : Listing) (frames : List Frame) : Phase → Prop
  | .cold | .restart | .prompt | .bye => i.memory.Sane l frames
  | .direct | .poll | .execute | .proceed | .nextLine => i.Running l frames
  | .line =>
    i.memory.Executing l frames ∧ ∀ address, i.currentLine = some address → l.Begins address
  | .ask purpose => i.Asking l frames purpose
  | .edit purpose pos => i.Asking l frames purpose ∧ i.memory.Typing pos

variable {l : Listing} {frames frames' : List Frame} {i j : Interpreter} {phase : Phase}

theorem Running.sane (h : i.Running l frames) : i.memory.Sane l frames :=
  h.toSane

theorem Asking.sane {purpose : Purpose} (h : i.Asking l frames purpose) :
    i.memory.Sane l frames := by
  cases purpose with
  | command => exact h
  | reply v resume => exact Running.sane (i := { i with textPos := resume }) h

theorem Ready.sane (h : i.Ready l frames phase) : i.memory.Sane l frames := by
  cases phase with
  | cold | restart | prompt | bye => exact h
  | direct | poll | execute | proceed | nextLine => exact Running.sane h
  | line => exact h.1.toSane
  | ask purpose => exact Asking.sane h
  | edit purpose pos => exact h.1.sane

/-- On the way from one interpreter to the other this frame was pushed, to continue where the
statement had been read to. A loop sets its variable after that. -/
def Pushes (i : Interpreter) (frame : Frame) (k : Interpreter) : Prop :=
  ∃ j m, i.ReadOn j ∧ frame.line = j.currentLine ∧ frame.pos = j.textPos ∧
    Memory.pushFrame frame j.memory = .ok () m ∧
      (k.memory = m ∨ ∃ v x, Memory.store v x m = .ok () k.memory)

/-- How a step that keeps the program changes the frames: it drops some, or pushes one of those that
it may push. -/
def Kept (pushes : Frame → Prop) (frames frames' : List Frame) : Prop :=
  frames'.Sublist frames ∨ ∃ frame, pushes frame ∧ frames' = frame :: frames

theorem Kept.refl (pushes : Frame → Prop) (frames : List Frame) : Kept pushes frames frames :=
  Or.inl (List.Sublist.refl _)

theorem Running.effect (h : i.Running l frames) (he : Effect l frames i phase frames' j) :
    j.Ready l frames' phase ∧ Kept (i.Pushes · j) frames frames' := by
  -- The frames that are left were on the stack before; only `GOSUB` and `FOR` push one.
  cases he with
  | pass hr hp =>
    refine ⟨?_, .refl _ _⟩
    have hj := hr.running h
    simp only [List.mem_cons, List.not_mem_nil, or_false] at hp
    rcases hp with rfl | rfl | rfl | rfl
    · exact hj
    · exact hj
    · exact hj.sane
    · exact hj.sane
  | ask v hr he => exact ⟨hr.running h, .refl _ _⟩
  | store v x hr he =>
    have hj := hr.running h
    exact ⟨⟨hj.stored v x, hj.inside⟩, .refl _ _⟩
  | run hr =>
    have hj := hr.running h
    refine ⟨⟨hj.unstacked, fun address ha => ?_⟩, Or.inl (List.nil_sublist _)⟩
    cases ha
    exact l.begins_zero
  | finish hr =>
    have hj := hr.running h
    refine ⟨⟨hj.toExecuting, fun address ha => ?_⟩, .refl _ _⟩
    cases ha
    exact Or.inr (Nat.le_of_eq hj.holds.programEnd_eq.symm)
  | jump number hr =>
    refine ⟨⟨(hr.running h).toExecuting, fun address ha => ?_⟩, .refl _ _⟩
    cases ha
    exact l.begins_below number
  | call number hr he hroom =>
    have hj := hr.running h
    have hpush := Memory.pushFrame_eq hroom hj.layout.top_le
    refine ⟨⟨hj.pushed (.gosub _ _) (hj.resumes_self he) hroom, fun address ha => ?_⟩,
      Or.inr ⟨_, ⟨_, _, hr, rfl, rfl, hpush, Or.inl rfl⟩, rfl⟩⟩
    cases ha
    exact l.begins_below number
  | goBack hr hf hb =>
    subst hf
    have hj := hr.running h
    exact ⟨⟨hj.removed, hj.inside_frame⟩,
      Or.inl (List.Sublist.append (List.Sublist.refl _) (List.sublist_cons_self _ _))⟩
  | @loop k v initial terminal step hr he hroom =>
    have hk := hr.running h
    have hpushed := hk.pushed (.loop v terminal step _ _) (hk.resumes_self he) hroom
    have hinside := hk.inside
    rw [← Memory.variablesBegin_pushed (.loop v terminal step k.currentLine k.textPos),
      ← Memory.variablesBegin_stored v initial] at hinside
    have hpush := Memory.pushFrame_eq hroom hk.layout.top_le
    have hstore := Memory.store_eq v initial hpushed.layout
    exact ⟨⟨hpushed.stored v initial, hinside⟩,
      Or.inr ⟨_, ⟨_, _, hr, rfl, rfl, hpush, Or.inr ⟨v, initial, hstore⟩⟩, rfl⟩⟩
  | @again k before after v terminal step line pos named hr hf hv hb hs =>
    subst hf
    have hk := hr.running h
    have hstored := hk.stored v (k.memory.value v + step)
    exact ⟨⟨hstored.unwound, hstored.inside_frame⟩, Or.inl (List.sublist_append_right _ _)⟩
  | @leave k before after v terminal step line pos named hr hf hv hb hs =>
    subst hf
    have hk := hr.running h
    have hstored := hk.stored v (k.memory.value v + step)
    have hinside := hk.inside
    rw [← Memory.variablesBegin_stored v (k.memory.value v + step)] at hinside
    exact ⟨⟨hstored.dropped, hinside⟩,
      Or.inl ((List.sublist_cons_self _ _).trans (List.sublist_append_right _ _))⟩

theorem Running.cleared (h : i.Running l frames) (he : Cleared i phase j) :
    j.Ready .empty [] phase := by
  obtain ⟨rfl, k, hr, rfl⟩ := he
  exact ⟨(hr.running h).emptied, fun f hf => absurd hf List.not_mem_nil⟩

end Interpreter
end LineBasic
