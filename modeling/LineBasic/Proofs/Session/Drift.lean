import LineBasic.Proofs.Expr.Draws
import LineBasic.Proofs.Memory.Bounds
import LineBasic.Proofs.Session.Scanning
import LineBasic.Session.Step

namespace LineBasic.Session
variable {σ α β : Type}

structure Drift (s s' : Session σ) : Prop where
  bounds : s.interpreter.memory.SameBounds s'.interpreter.memory
  echo_eq : s'.interpreter.echo = s.interpreter.echo
  random_eq : s'.interpreter.generator.random = s.interpreter.generator.random
  peeks_le : s.journal.peeks ≤ s'.journal.peeks

theorem Drift.refl (s : Session σ) : Drift s s :=
  ⟨.refl _, rfl, rfl, Nat.le_refl _⟩

theorem Drift.trans {s s' s'' : Session σ} (h : Drift s s') (h' : Drift s' s'') : Drift s s'' :=
  ⟨h.bounds.trans h'.bounds, h'.echo_eq.trans h.echo_eq, h'.random_eq.trans h.random_eq,
    Nat.le_trans h.peeks_le h'.peeks_le⟩

theorem peeks_note (journal : Journal) (entry : Journal.Entry) :
    (journal.note entry).peeks = journal.peeks := by
  unfold Journal.note
  split
  · rfl
  · rfl

def Drifts (act : Act σ α) : Prop :=
  ∀ s, Drift s (final (act s))

namespace Drifts

theorem pure (a : α) : Drifts (pure a : Act σ α) :=
  Drift.refl

theorem fail (e : Error) : Drifts (fail e : Act σ α) :=
  Drift.refl

theorem look (f : Interpreter → α) : Drifts (look f : Act σ α) :=
  Drift.refl

theorem bind {x : Act σ α} {f : α → Act σ β} (hx : Drifts x) (hf : ∀ a, Drifts (f a)) :
    Drifts (x >>= f) := by
  intro s
  have hfirst := hx s
  cases hr : x s with
  | ok a s' =>
    rw [hr] at hfirst
    rw [bind_of_ok hr]
    exact hfirst.trans (hf a s')
  | error e s' =>
    rw [hr] at hfirst
    rw [bind_of_error hr]
    exact hfirst

/-- No step takes an application of `PEEK` back: if two steps together apply none, neither does. -/
theorem peeks_eq {x : Act σ α} {f : α → Act σ β} (hx : Drifts x) (hf : ∀ a, Drifts (f a))
    {s : Session σ} (h : (final ((x >>= f) s)).journal.peeks = s.journal.peeks) :
    (final (x s)).journal.peeks = s.journal.peeks ∧
      ∀ a s', x s = .ok a s' → (final (f a s')).journal.peeks = s'.journal.peeks := by
  have hfirst := (hx s).peeks_le
  cases hr : x s with
  | ok a s' =>
    rw [hr, final_ok] at hfirst
    rw [bind_of_ok hr] at h
    have hsecond := (hf a s').peeks_le
    refine ⟨?_, fun a' t ht => ?_⟩
    · rw [final_ok]
      omega
    · cases ht
      omega
  | error e s' =>
    rw [bind_of_error hr] at h
    refine ⟨h, fun a t ht => ?_⟩
    cases ht

theorem ite {c : Prop} [Decidable c] {x y : Act σ α} (hx : Drifts x) (hy : Drifts y) :
    Drifts (if c then x else y) := by
  split
  · exact hx
  · exact hy

theorem note (entry : Journal.Entry) : Drifts (note entry : Act σ Unit) :=
  fun s => ⟨.refl _, rfl, rfl, Nat.le_of_eq (peeks_note s.journal entry).symm⟩

theorem tally (peeks : Nat) : Drifts (tally peeks : Act σ Unit) :=
  fun _ => ⟨.refl _, rfl, rfl, Nat.le_add_right _ _⟩

theorem onMemory {update : Update α} (h : Memory.KeepsBounds update) :
    Drifts (onMemory update : Act σ α) := by
  intro s
  have hkeeps := h s.interpreter.memory
  cases hr : update s.interpreter.memory with
  | ok a m =>
    rw [hr] at hkeeps
    rw [onMemory_of_ok hr]
    exact ⟨hkeeps, rfl, rfl, Nat.le_refl _⟩
  | error e m =>
    rw [hr] at hkeeps
    rw [onMemory_of_error hr]
    exact ⟨hkeeps, rfl, rfl, Nat.le_refl _⟩

theorem lookIn (f : Memory → Except Fault α) : Drifts (lookIn f : Act σ α) :=
  .onMemory (.reading f)

theorem change {f : Interpreter → Interpreter}
    (hm : ∀ i : Interpreter, i.memory.SameBounds (f i).memory)
    (he : ∀ i : Interpreter, (f i).echo = i.echo)
    (hr : ∀ i : Interpreter, (f i).generator.random = i.generator.random) :
    Drifts (change f : Act σ Unit) :=
  fun s => ⟨hm s.interpreter, he s.interpreter, hr s.interpreter, Nat.le_refl _⟩

theorem goTo (c : Cursor) : Drifts (goTo c : Act σ Unit) :=
  .change (f := fun i => { i with textPos := c.pos }) (fun _ => .refl _) (fun _ => rfl) fun _ => rfl

theorem onHost (operation : EStateM IoError σ α) : Drifts (onHost operation) := by
  intro s
  unfold Session.onHost
  dsimp only
  cases operation s.host with
  | ok a host => exact ⟨.refl _, rfl, rfl, Nat.le_refl _⟩
  | error e host => exact ⟨.refl _, rfl, rfl, Nat.le_refl _⟩

theorem attempt {act : Act σ α} (h : Drifts act) : Drifts (attempt act) := by
  intro s
  have hdrift := h s
  unfold Session.attempt
  cases hr : act s with
  | ok a s' =>
    rw [hr] at hdrift
    exact hdrift
  | error e s' =>
    rw [hr] at hdrift
    cases e with
    | error e => exact hdrift
    | io e => exact hdrift
    | fault f => exact hdrift

end Drifts
end LineBasic.Session
