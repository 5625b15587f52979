import LineBasic.Proofs.Session.Coupling

namespace LineBasic

def Coupling.Continues (C : Coupling) (frames : List Frame) : Prop :=
  ∀ frame ∈ frames, C.Shares frame.line frame.pos

theorem Coupling.continues_nil (C : Coupling) : C.Continues [] :=
  fun _ hm => absurd hm List.not_mem_nil

namespace Interpreter

structure InStep (C : Coupling) (exact : Prop) (l : Listing) (frames : List Frame)
    (i j : Interpreter) : Prop extends
    Coupled C exact i j where
  running : i.Running l frames
  textPos_eq : j.textPos = i.textPos
  shares : C.Shares i.currentLine i.textPos
  continues : C.Continues frames

namespace InStep
variable {C : Coupling} {exact : Prop} {l : Listing} {frames : List Frame} {i j : Interpreter}

theorem like (h : InStep C exact l frames i j) : i.cursor.Like j.cursor := by
  show Cursor.Like ⟨i.memory.ram, i.textPos⟩ ⟨j.memory.ram, j.textPos⟩
  rw [h.textPos_eq]
  exact C.like h.memory h.running.toExecuting h.running.inside h.shares

theorem readOn (h : InStep C exact l frames i j) {c : Cursor} (hw : i.cursor.Within c)
    (generator : Generator) :
    InStep C exact l frames { i with textPos := c.pos, generator }
      { j with textPos := c.pos, generator } where
  memory := h.memory
  currentLine_eq := h.currentLine_eq
  direct := h.direct
  generator_eq := rfl
  echo_eq := h.echo_eq
  same he := by rw [h.same he]
  running := (ReadOn.of_within hw generator).running h.running
  textPos_eq := rfl
  shares := C.shares_mono h.shares hw.le
  continues := h.continues

theorem layouts (h : InStep C exact l frames i j) : i.memory.Layout ∧ j.memory.Layout :=
  h.toCoupled.layouts h.running.layout

theorem sound' (h : InStep C exact l frames i j) : j.memory.Sound l frames :=
  C.sound h.memory h.running.toSound

theorem stored (h : InStep C exact l frames i j) (v : Variable) (x : Int16) :
    InStep C exact l frames (i.withMemory (i.memory.stored v x))
      (j.withMemory (j.memory.stored v x)) where
  toCoupled := h.toCoupled.stored h.running.layout v x
  running := ⟨h.running.toExecuting.stored v x, h.running.inside⟩
  textPos_eq := h.textPos_eq
  shares := h.shares
  continues := h.continues

end InStep
end Interpreter

namespace Session
variable {σ τ α β : Type} {R : σ → τ → Prop} {C : Coupling} {exact : Prop} {l : Listing}
  {frames : List Frame}

open Interpreter (InStep)

def At (C : Coupling) (exact : Prop) (l : Listing) (frames : List Frame) (c : Cursor)
    (i j : Interpreter) : Prop :=
  InStep C exact l frames i j ∧ i.cursor = c

abbrev ReadsAlike (R : σ → τ → Prop) (C : Coupling) (exact : Prop) (l : Listing)
    (frames : List Frame) (act : Act σ α) (act' : Act τ α) : Prop :=
  Tracks R exact (InStep C exact l frames) (fun _ => InStep C exact l frames)
    (InStep C exact l frames)
    act act'

section
variable {post : α → Interpreter → Interpreter → Prop} {stop : Interpreter → Interpreter → Prop}

/-- Looking at the text. The cursors are alike, though the buffers are not the same. -/
theorem Tracks.cursor {f : Cursor → Act σ α} {f' : Cursor → Act τ α}
    (h : ∀ c c', c.Like c' → Tracks R exact (At C exact l frames c) post stop (f c) (f' c')) :
    Tracks R exact (InStep C exact l frames) post stop (cursor >>= f) (cursor >>= f') :=
  .similar (f := Interpreter.cursor) Cursor.Like.refl (fun _ _ hp => hp.like) fun c c' hc =>
    (h c c' hc).mono (fun _ _ hp => ⟨hp.1, hp.2.1⟩) (fun _ _ _ hp => hp) fun _ _ hp => hp

theorem Tracks.goTo {c c₁ c₁' : Cursor} {g : Act σ α} {k : Act τ α} (hl : c₁.Like c₁')
    (hw : c.Within c₁) (h : Tracks R exact (At C exact l frames c₁) post stop g k) :
    Tracks R exact (At C exact l frames c) post stop (goTo c₁ >>= fun _ => g)
      (goTo c₁' >>= fun _ => k) := by
  refine ⟨(Drifts.goTo c₁).bind fun _ => h.drifts, fun s t hR hp hpeeks => ?_⟩
  obtain ⟨hstep, rfl⟩ := hp
  have hread := hstep.readOn hw s.interpreter.generator
  refine h.pairs (s.movedTo c₁.pos) (t.movedTo c₁'.pos) hR ⟨?_, cursor_movedTo hw⟩ hpeeks
  rw [hl.pos_eq]
  simpa only [movedTo, hstep.generator_eq] using hread

end

theorem drifts_evaluate : Drifts (evaluate : Act σ (Except Error Int16)) := by
  refine .bind (.look _) fun c => ?_
  refine .bind (.lookIn _) fun surroundings => ?_
  refine .bind (.tally _) fun _ => ?_
  intro s
  have hrandom := c.expression.1.random_evaluate surroundings s.interpreter.generator
  rw [bind_of_ok (show look (·.generator) s = .ok s.interpreter.generator s from rfl)]
  rcases hr : (Expr.readRelation c.rest).expr.evaluate surroundings
    s.interpreter.generator with ⟨result, g⟩
  have hg : g.random = s.interpreter.generator.random :=
    (congrArg (·.2.random) hr).symm.trans hrandom
  cases result with
  | ok x => exact ⟨.refl _, rfl, hg, Nat.le_refl _⟩
  | error why => exact ⟨.refl _, rfl, hg, Nat.le_refl _⟩

theorem tracks_evaluate_of {pre stop : Interpreter → Interpreter → Prop}
    {post : Except Error Int16 → Interpreter → Interpreter → Prop}
    (h : ∀ i j, pre i j → Interpreter.Coupled C exact i j ∧ i.memory.Layout ∧
      i.cursor.Like j.cursor)
    (hpost : ∀ i j, pre i j → ∀ r generator, post r { i with generator, textPos :=
      i.cursor.expression.2.pos } { j with generator, textPos := i.cursor.expression.2.pos }) :
    Tracks R exact pre post stop (evaluate : Act σ (Except Error Int16))
      (evaluate : Act τ (Except Error Int16)) := by
  refine ⟨drifts_evaluate, fun s t hR hp hpeeks => ?_⟩
  obtain ⟨hcoupled, hm, hlike⟩ := h _ _ hp
  rcases hr : s.interpreter.cursor.expression.1.evaluate s.interpreter.memory.view
    s.interpreter.generator
    with ⟨result, generator⟩
  have hrun := evaluate_eq hm hr
  have hnone : exact ∨ s.interpreter.cursor.expression.1.peeks = 0 := by
    refine hpeeks.imp_right fun heq => ?_
    rw [hrun, final_ok] at heq
    exact Nat.add_eq_left.1 heq
  have hrun' := evaluate_eq (s := t) (C.layout hcoupled.memory hm)
    ((hcoupled.evaluate_eq hm hlike hnone).trans hr)
  rw [hlike.expression.2.pos_eq] at hrun'
  exact .of_ok hrun hrun' ⟨hR, hpost _ _ hp _ generator⟩

theorem tracks_evaluate :
    ReadsAlike R C exact l frames (evaluate : Act σ (Except Error Int16))
      (evaluate : Act τ (Except Error Int16)) :=
  tracks_evaluate_of (fun _ _ h => ⟨h.toCoupled, h.running.layout, h.like⟩)
    fun _ _ h _ generator => h.readOn (Cursor.expression_within _) generator

end Session
end LineBasic
