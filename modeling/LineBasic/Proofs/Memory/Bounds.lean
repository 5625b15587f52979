import LineBasic.Memory.Frames
import LineBasic.Memory.Lines
import LineBasic.Proofs.Memory.Bytes

namespace LineBasic.Memory

/-- The variables and the room of the stack are at the same place in a buffer of the same size. -/
structure SameBounds (m m' : Memory) : Prop where
  size_eq : m'.size = m.size
  variablesBegin_eq : m'.variablesBegin = m.variablesBegin
  stackLimit_eq : m'.stackLimit = m.stackLimit

variable {m m' m'' : Memory} {α β : Type}

theorem SameBounds.refl (m : Memory) : m.SameBounds m :=
  ⟨rfl, rfl, rfl⟩

theorem SameBounds.symm (h : m.SameBounds m') : m'.SameBounds m :=
  ⟨h.size_eq.symm, h.variablesBegin_eq.symm, h.stackLimit_eq.symm⟩

theorem SameBounds.trans (h : m.SameBounds m') (h' : m'.SameBounds m'') : m.SameBounds m'' :=
  ⟨h'.size_eq.trans h.size_eq, h'.variablesBegin_eq.trans h.variablesBegin_eq,
    h'.stackLimit_eq.trans h.stackLimit_eq⟩

def KeepsBounds (update : Update α) : Prop :=
  ∀ m : Memory, m.SameBounds (final (update m))

namespace KeepsBounds

theorem pure (a : α) : KeepsBounds (pure a) :=
  SameBounds.refl

theorem throw (h : Halt) : KeepsBounds (throw h : Update α) :=
  SameBounds.refl

theorem get : KeepsBounds get :=
  SameBounds.refl

theorem modify {f : Memory → Memory} (h : ∀ m : Memory, m.SameBounds (f m)) :
    KeepsBounds (modify f) :=
  h

theorem bind {x : Update α} {f : α → Update β} (hx : KeepsBounds x) (hf : ∀ a, KeepsBounds (f a)) :
    KeepsBounds (x >>= f) := by
  intro m
  have hfirst := hx m
  cases hr : x m with
  | ok a m' =>
    rw [hr] at hfirst
    rw [bind_of_ok hr]
    exact hfirst.trans (hf a m')
  | error e m' =>
    rw [hr] at hfirst
    rw [bind_of_error hr]
    exact hfirst

theorem ite {c : Prop} [Decidable c] {x y : Update α} (hx : KeepsBounds x) (hy : KeepsBounds y) :
    KeepsBounds (if c then x else y) := by
  split
  · exact hx
  · exact hy

theorem reading (f : Memory → Except Fault α) : KeepsBounds (reading f) := by
  intro m
  unfold Memory.reading
  cases f m with
  | ok a => exact .refl m
  | error fault => exact .refl m

theorem write (start : Nat) (bytes : List UInt8) : KeepsBounds (write start bytes) := by
  intro m
  unfold Memory.write
  split
  · exact ⟨size_overwrite _ _ _, rfl, rfl⟩
  · exact .refl m

theorem move (first last target : Nat) : KeepsBounds (move first last target) :=
  .bind (.reading _) fun _ => .write _ _

theorem store (v : Variable) (x : Int16) : KeepsBounds (store v x) :=
  .bind .get fun _ => .write _ _

theorem clearProgram : KeepsBounds clearProgram :=
  .modify fun _ => ⟨rfl, rfl, rfl⟩

theorem clearStack : KeepsBounds clearStack :=
  .modify fun _ => ⟨rfl, rfl, rfl⟩

theorem clear : KeepsBounds clear := by
  refine .bind clearProgram fun _ => ?_
  refine .bind clearStack fun _ => ?_
  refine .bind (.reading _) fun _ => ?_
  refine .bind .get fun _ => ?_
  exact .write _ _

theorem placeEntry (line : List UInt8) : KeepsBounds (placeEntry line) := by
  refine .bind .get fun m => .bind ?_ fun _ => .bind (.write _ _) fun _ => .write _ _
  intro m'
  have h := KeepsBounds.reading (fun m' => difference m'.variablesBegin
    (m.entryStart + line.length)) m'
  simp only [discard, Functor.mapConst, Function.comp_apply, EStateM.map]
  cases hr : Memory.reading (fun m' => difference m'.variablesBegin (m.entryStart + line.length))
    m' with
  | ok a m'' =>
    rw [hr] at h
    exact h
  | error e m'' =>
    rw [hr] at h
    exact h

theorem foldCase (start : Nat) : KeepsBounds (foldCase start) :=
  .bind (.reading _) fun _ => .write _ _

theorem stage (start : Nat) : KeepsBounds (stage start) := by
  refine .bind .get fun _ => ?_
  refine .bind (.reading _) fun _ => ?_
  refine .bind (.reading _) fun _ => ?_
  refine .bind (.write _ _) fun _ => ?_
  refine .bind (.reading _) fun _ => ?_
  refine .bind (.write _ _) fun _ => ?_
  exact .pure _

theorem openHole (rounds remaining record hole : Nat) :
    KeepsBounds (openHole rounds remaining record hole) := by
  induction rounds generalizing remaining record hole with
  | zero => exact .pure ()
  | succ rounds ih =>
    unfold Memory.openHole
    exact .ite (.pure ()) (.bind .get fun _ => .bind (.reading _)
      fun _ => .bind (.move _ _ _) fun _ =>
      .bind (.move _ _ _) fun _ => .bind (.modify fun _ => ⟨rfl, rfl, rfl⟩) fun _ => ih _ _ _)

theorem dropRecord (hole length : Nat) : KeepsBounds (dropRecord hole length) := by
  unfold Memory.dropRecord
  exact .ite (.bind .get fun _ => .bind (.move _ _ _) fun _ => .modify fun _ => ⟨rfl, rfl, rfl⟩)
    (.pure ())

theorem applyEdit (number : UInt16) (record length hole existing : Nat) (deletes : Bool) :
    KeepsBounds (applyEdit number record length hole existing deletes) := by
  have hplace : KeepsBounds (do
      if deletes then
        return { removed := 0 < existing, stored := none }
      placeRecord number record length hole
      return { removed := 0 < existing, stored := some length } : Update Edit) := by
    cases deletes with
    | true => exact .pure _
    | false => exact .bind (.bind (.write _ _) fun _ => .openHole _ _ _ _) fun _ => .pure _
  exact .bind (.dropRecord _ _) fun _ => .ite (.bind clearStack fun _ => hplace) hplace

theorem insertStaged (number : UInt16) (body : Nat) : KeepsBounds (insertStaged number body) := by
  refine .bind .get fun _ => ?_
  refine .bind .get fun _ => ?_
  refine .ite (.throw _) (.bind (.reading _) fun _ => .ite (.throw _) ?_)
  refine .bind (.reading _) fun _ => ?_
  refine .bind (.reading _) fun _ => ?_
  refine .bind (.reading _) fun _ => ?_
  refine .bind (.reading _) fun _ => ?_
  exact .ite (.throw _) (.applyEdit _ _ _ _ _ _)

theorem pushFrame (frame : Frame) : KeepsBounds (pushFrame frame) := by
  exact .bind .get fun m => .ite (.throw _) (.bind (.modify fun _ => ⟨rfl, rfl, rfl⟩)
    fun _ => .write _ _)

theorem removeFrame (address : Nat) : KeepsBounds (removeFrame address) := by
  refine .bind (.reading _) fun found => ?_
  cases found with
  | none => exact .pure _
  | some frame =>
    refine .bind .get fun _ => ?_
    refine .bind (.move _ _ _) fun _ => ?_
    refine .bind (.modify fun _ => ⟨rfl, rfl, rfl⟩) fun _ => ?_
    exact .pure _

theorem unwindTo (address : Nat) : KeepsBounds (unwindTo address) :=
  .modify fun _ => ⟨rfl, rfl, rfl⟩

theorem unwindPast (address : Nat) : KeepsBounds (unwindPast address) := by
  refine .bind (.reading _) fun found => ?_
  cases found with
  | none => exact .pure _
  | some frame => exact .bind (unwindTo _) fun _ => .pure _

end KeepsBounds
end LineBasic.Memory
