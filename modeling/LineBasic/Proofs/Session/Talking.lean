import LineBasic.Proofs.Session.Scanning
import LineBasic.Session.Step

namespace LineBasic.Session
variable {σ α β : Type}

def HostFailed (i : Interpreter) (h : Halt) (s : Session σ) : Prop :=
  s.interpreter = i ∧ ∃ e, h = .io e

/-- In a buffer that is laid out well the action has this effect on the interpreter; where the host
fails, the interpreter is still as it was. -/
def Concludes (effect : Interpreter → α → Interpreter → Prop) (act : Act σ α) : Prop :=
  ∀ s : Session σ, s.interpreter.memory.Layout →
    Ends (act s) (fun a s' => effect s.interpreter a s'.interpreter) (HostFailed s.interpreter)

abbrev Talks (act : Act σ α) : Prop :=
  Concludes (fun i _ j => j = i) act

theorem Talks.conclude {x : Act σ α} {f : α → Act σ β}
    {effect : Interpreter → β → Interpreter → Prop} (hx : Talks x)
    (hf : ∀ a, Concludes effect (f a)) : Concludes effect (x >>= f) := by
  intro s hs
  refine Ends.bind (hx s hs) fun a s' he => ?_
  have h := hf a s' (he ▸ hs)
  rwa [he] at h

theorem Talks.bind {x : Act σ α} {f : α → Act σ β} (hx : Talks x) (hf : ∀ a, Talks (f a)) :
    Talks (x >>= f) :=
  hx.conclude hf

theorem talks_pure (a : α) : Talks (pure a : Act σ α) :=
  fun _ _ => rfl

theorem talks_look (f : Interpreter → α) : Talks (look f : Act σ α) :=
  fun _ _ => rfl

theorem talks_note (entry : Journal.Entry) : Talks (note entry : Act σ Unit) :=
  fun _ _ => rfl

theorem talks_lookIn {f : Memory → Except Fault α} (h : ∀ m : Memory, m.Layout → ∃ a, f m = .ok a) :
    Talks (lookIn f : Act σ α) := by
  intro s hs
  obtain ⟨a, ha⟩ := h _ hs
  exact Ends.of_ok (lookIn_of_ok ha) rfl

theorem talks_onHost (operation : EStateM IoError σ α) : Talks (onHost operation) := by
  intro s _
  unfold onHost
  dsimp only
  cases operation s.host with
  | ok a host => exact rfl
  | error e host => exact ⟨rfl, e, rfl⟩

/-- From an interpreter that meets `pre` the action leads to one that meets `post`; it stops only
where the host fails, and then the interpreter meets `stop`. -/
def Takes (pre : Interpreter → Prop) (post : α → Interpreter → Prop) (stop : Interpreter → Prop)
    (act : Act σ α) : Prop :=
  ∀ s : Session σ, pre s.interpreter →
    Ends (act s) (fun a s' => post a s'.interpreter) fun h s' => (∃ e, h = .io e) ∧
      stop s'.interpreter

section
variable {pre : Interpreter → Prop} {post : α → Interpreter → Prop} {stop : Interpreter → Prop}

theorem takes_pure {a : α} (h : ∀ i, pre i → post a i) : Takes pre post stop (pure a : Act σ α) :=
  fun s hp => h s.interpreter hp

theorem Takes.look {f : Interpreter → β} {g : β → Act σ α}
    (h : ∀ b, Takes (fun i => pre i ∧ f i = b) post stop (g b)) :
    Takes pre post stop (look f >>= g) :=
  fun s hp => h (f s.interpreter) s ⟨hp, rfl⟩

theorem Talks.takes {x : Act σ β} {f : β → Act σ α} (hx : Talks x)
    (hp : ∀ i, pre i → i.memory.Layout ∧ stop i) (hf : ∀ b, Takes pre post stop (f b)) :
    Takes pre post stop (x >>= f) := by
  intro s hs
  refine Ends.bind ((hx s (hp _ hs).1).mono (fun _ _ h => h) fun h s' hh => ?_) fun a s' he => ?_
  · exact ⟨hh.2, hh.1 ▸ (hp _ hs).2⟩
  · exact hf a s' (he ▸ hs)

end

section
variable [Host σ]

/-- The action writes these bytes and leaves the interpreter alone, or the host fails at one of
them. -/
def Prints (bytes : List UInt8) (act : Act σ α) : Prop :=
  ∀ s, Ends (act s)
    (fun _ t => t.interpreter = s.interpreter ∧ Wrote bytes s.host t.host)
    fun cause t => t.interpreter = s.interpreter ∧ ∃ e, cause = .io e ∧
      FailedAt bytes e s.host t.host

theorem prints_pure (a : α) : Prints [] (pure a : Act σ α) :=
  fun s => ⟨rfl, .nil s.host⟩

theorem Prints.bind {bytes bytes' : List UInt8} {x : Act σ α} {f : α → Act σ β}
    (hx : Prints bytes x) (hf : ∀ a, Prints bytes' (f a)) : Prints (bytes ++ bytes') (x >>= f) := by
  intro s
  refine Ends.bind ((hx s).mono (fun _ _ h => h) fun cause t h => ?_) fun a t h => ?_
  · obtain ⟨hi, e, hcause, hfailed⟩ := h
    exact ⟨hi, e, hcause, hfailed.append bytes'⟩
  · obtain ⟨hi, hwrote⟩ := h
    refine (hf a t).mono (fun b u hu => ⟨hu.1.trans hi, hwrote.append hu.2⟩) fun cause u hu => ?_
    obtain ⟨hi', e, hcause, hfailed⟩ := hu
    exact ⟨hi'.trans hi, e, hcause, hwrote.failedAt hfailed⟩

theorem prints_writeByte (b : UInt8) : Prints [b] (writeByte b : Act σ Unit) := by
  intro s
  unfold writeByte onHost
  dsimp only
  cases hw : Host.write b s.host with
  | ok u host => exact ⟨rfl, .cons hw (.nil host)⟩
  | error e host => exact ⟨rfl, e, rfl, [], b, s.host, List.prefix_refl _, .nil s.host, hw⟩

theorem prints_print (bytes : List UInt8) : Prints bytes (print bytes : Act σ Unit) := by
  induction bytes with
  | nil => exact prints_pure ()
  | cons b rest ih => exact (prints_writeByte b).bind fun _ => ih

theorem prints_printLine (line : List UInt8) :
    Prints (line ++ [Byte.marker]) (printLine line : Act σ Unit) :=
  (prints_print line).bind fun _ => prints_writeByte _

theorem prints_printLines (lines : List Line) :
    Prints (lines.flatMap fun line => line.display ++ [Byte.marker])
      (printLines lines : Act σ Unit) := by
  induction lines with
  | nil => exact prints_pure ()
  | cons line rest ih => exact (prints_printLine line.display).bind fun _ => ih

theorem Prints.talks {bytes : List UInt8} {act : Act σ α} (h : Prints bytes act) : Talks act := by
  intro s _
  refine (h s).mono (fun _ _ h => h.1) fun cause t h => ?_
  obtain ⟨hi, e, hcause, -⟩ := h
  exact ⟨hi, e, hcause⟩

variable {word : Option Keyword} {l : Listing} {frames : List Frame}

/-- What is shown for a piece without text. -/
theorem Prints.reads {p : Piece} {act : Act σ α} (h : Prints p.shown act) (hp : p.Of word)
    (hs : p.source = []) : Reads word l frames (fun _ _ => True) act := by
  have hof : ∀ q ∈ [p], q.Of word := List.forall_mem_singleton.2 hp
  intro s _ _
  refine (h s).mono (fun a t ht => ?_) fun cause t ht => ?_
  · obtain ⟨hi, hwrote⟩ := ht
    refine ⟨s.interpreter, ⟨.refl _, [p], hof, ?_, ?_⟩, hi, trivial⟩
    · rw [List.flatMap_singleton, hs]
      exact .refl _
    · rwa [List.flatMap_singleton]
  · obtain ⟨hi, e, rfl, hfailed⟩ := ht
    refine ⟨hi ▸ .refl _, trivial, fun _ he => Halt.noConfusion he, [p], hof, ?_, ?_⟩
    · rw [List.flatMap_singleton, hs]
      exact List.nil_prefix
    · rwa [List.flatMap_singleton]

theorem talks_writeByte (b : UInt8) : Talks (writeByte b : Act σ Unit) :=
  (prints_writeByte b).talks

theorem talks_newline : Talks (newline : Act σ Unit) :=
  talks_writeByte _

theorem talks_print (bytes : List UInt8) : Talks (print bytes : Act σ Unit) :=
  (prints_print bytes).talks

theorem talks_printLine (line : List UInt8) : Talks (printLine line : Act σ Unit) :=
  (prints_printLine line).talks

theorem talks_printFree : Talks (printFree : Act σ Unit) :=
  (talks_lookIn fun _ hm => ⟨_, hm.free_eq⟩).bind fun _ =>
    (talks_print _).bind fun _ => talks_printLine _

theorem talks_interrupted : Talks (interrupted : Act σ Bool) := by
  refine Talks.bind (talks_onHost _) fun b => ?_
  cases b with
  | true => exact Talks.bind (talks_onHost _) fun _ => talks_pure _
  | false => exact talks_pure _

end
end LineBasic.Session
