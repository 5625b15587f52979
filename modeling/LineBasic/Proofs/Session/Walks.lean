import LineBasic.Proofs.Session.InStep

namespace LineBasic.Session
variable {σ τ α β : Type} [Host σ] {R : σ → τ → Prop} {C : Coupling} {exact : Prop}
  {word : Option Keyword} {l : Listing} {frames : List Frame}

open Interpreter (InStep)

/-- What an action does within a statement, said once for all that is shown of statements: what it
leads to in one session, and that two sessions in step do it side by side. -/
structure Walks (R : σ → τ → Prop) (C : Coupling) (exact : Prop) (word : Option Keyword)
    (l : Listing) (frames : List Frame) (pre : Interpreter → Prop)
    (effect : Interpreter → α → Interpreter → Prop) (post : α → Interpreter → Interpreter → Prop)
    (act : Act σ α) (act' : Act τ α) : Prop where
  leads : Leads word l frames pre effect act
  tracks : Tracks R exact (fun i j => InStep C exact l frames i j ∧ pre i) post
    (InStep C exact l frames) act act'

abbrev Scans (R : σ → τ → Prop) (C : Coupling) (exact : Prop) (word : Option Keyword)
    (l : Listing) (frames : List Frame) (post : α → Interpreter → Prop) (act : Act σ α)
    (act' : Act τ α) : Prop :=
  Walks R C exact word l frames (fun _ => True) (reading post)
    (fun a i j => InStep C exact l frames i j ∧ post a i) act act'

section
variable {pre pre' : Interpreter → Prop} {post : α → Interpreter → Prop}
  {effect effect' : Interpreter → α → Interpreter → Prop}
  {last last' : α → Interpreter → Interpreter → Prop}

theorem Walks.mono {act : Act σ α} {act' : Act τ α}
    (h : Walks R C exact word l frames pre effect last act act') (hp : ∀ i, pre' i → pre i)
    (he : ∀ i a j, effect i a j → effect' i a j) (hl : ∀ a i j, last a i j → last' a i j) :
    Walks R C exact word l frames pre' effect' last' act act' :=
  ⟨h.leads.mono hp he, h.tracks.mono (fun _ _ hi => ⟨hi.1, hp _ hi.2⟩) hl fun _ _ hi => hi⟩

theorem Scans.of {act : Act σ α} {act' : Act τ α} (h : Reads word l frames post act)
    (h' : ReadsAlike R C exact l frames act act') :
    Scans R C exact word l frames post act act' := by
  refine ⟨h, h'.drifts, fun s t hR hp hpeeks => ?_⟩
  obtain ⟨hstep, -⟩ := hp
  have hends := (h'.pairs s t hR hstep hpeeks).and_ends (h.past hstep.running)
  refine hends.mono (fun a u v hu => ?_) fun _ _ _ hu => hu.1
  obtain ⟨⟨hR', hstep'⟩, -, hpost⟩ := hu
  exact ⟨hR', hstep', hpost⟩

/-- Reading, and what follows it. -/
theorem Scans.bind {x : Act σ α} {x' : Act τ α} {f : α → Act σ β} {f' : α → Act τ β}
    {effect : Interpreter → β → Interpreter → Prop}
    {last : β → Interpreter → Interpreter → Prop} (hx : Scans R C exact word l frames post x x')
    (hf : ∀ a, Walks R C exact word l frames (post a) effect last (f a) (f' a)) :
    Walks R C exact word l frames pre effect last (x >>= f) (x' >>= f') := by
  refine ⟨Reads.bind hx.leads fun a => (hf a).leads, ?_⟩
  refine Tracks.bind (hx.tracks.mono (fun i j hi => ?_) (fun _ _ _ hi => hi) fun _ _ hi => hi)
    fun a => (hf a).tracks
  exact ⟨hi.1, trivial⟩

theorem walks_pure {a : α} (h : ∀ i, pre i → effect i a i)
    (h' : ∀ i j, InStep C exact l frames i j → pre i → last a i j) :
    Walks R C exact word l frames pre effect last (pure a : Act σ α) (pure a : Act τ α) :=
  ⟨leads_pure h, tracks_pure fun i j hi => h' i j hi.1 hi.2⟩

theorem walks_return {a : α} (h : ∀ i, pre i → post a i) :
    Walks R C exact word l frames pre (reading post) (fun a i j => InStep C exact l frames i j ∧
      post a i) (pure a : Act σ α) (pure a : Act τ α) :=
  walks_pure (fun i hi => ⟨rfl, h i hi⟩) fun i _ hi hp => ⟨hi, h i hp⟩

theorem walks_fail {e e' : Error} (he : e' = e)
    (h : ∀ i, pre i → e.category = .malformed → i.Ahead e.column) :
    Walks R C exact word l frames pre effect last (fail e : Act σ α) (fail e' : Act τ α) :=
  ⟨leads_fail h, tracks_fail he fun _ _ hi => hi.1⟩

/-- What cannot be done is no fault of the text. -/
theorem walks_fail_impossible {pos pos' : Nat} (he : pos' = pos) (why : Diagnostic) :
    Walks R C exact word l frames pre effect last (fail (.impossible pos why) : Act σ α)
      (fail (.impossible pos' why) : Act τ α) :=
  walks_fail (congrArg (Error.impossible · why) he) fun _ _ hc => Category.noConfusion hc

theorem walks_ite {c : Prop} [Decidable c] {x y : Act σ α} {x' y' : Act τ α}
    (hx : c → Walks R C exact word l frames pre effect last x x')
    (hy : ¬ c → Walks R C exact word l frames pre effect last y y') :
    Walks R C exact word l frames pre effect last (if c then x else y) (if c then x' else y') := by
  split
  case isTrue h => exact hx h
  case isFalse h => exact hy h

theorem Walks.look {f : Interpreter → β} {g : β → Act σ α} {g' : β → Act τ α}
    (hf : ∀ i j, InStep C exact l frames i j → f j = f i)
    (h : ∀ b, Walks R C exact word l frames (fun i => pre i ∧ f i = b) effect last (g b) (g' b)) :
    Walks R C exact word l frames pre effect last (look f >>= g) (look f >>= g') := by
  refine ⟨Leads.look fun b => (h b).leads, ?_⟩
  refine (tracks_look fun i j hi => hf i j hi.1).bind fun b => ?_
  exact (h b).tracks.mono (fun _ _ hi => ⟨hi.1.1, hi.1.2, hi.2⟩) (fun _ _ _ hi => hi)
    fun _ _ hi => hi

theorem Walks.cursor {g : Cursor → Act σ α} {g' : Cursor → Act τ α}
    (h : ∀ c c', c.Like c' → Walks R C exact word l frames (fun i => pre i ∧ i.cursor = c) effect
      last (g c) (g' c')) :
    Walks R C exact word l frames pre effect last (cursor >>= g) (cursor >>= g') := by
  refine ⟨Leads.cursor fun c => (h c c (.refl c)).leads, ?_⟩
  refine .similar (f := Interpreter.cursor) Cursor.Like.refl (fun _ _ hi => hi.1.like)
    fun c c' hc => ?_
  exact (h c c' hc).tracks.mono (fun _ _ hi => ⟨hi.1.1, hi.1.2, hi.2.1⟩) (fun _ _ _ hi => hi)
    fun _ _ hi => hi

/-- Moving on in the line, and what follows it. -/
theorem Walks.goTo {c c₁ c₁' : Cursor} {g : Act σ α} {k : Act τ α} (hl : c₁.Like c₁')
    (hs : c.Skips c₁)
    (h : Walks R C exact word l frames (fun i => i.cursor = c₁) effect last g k) :
    Walks R C exact word l frames (fun i => pre i ∧ i.cursor = c) effect last
      (goTo c₁ >>= fun _ => g) (goTo c₁' >>= fun _ => k) := by
  refine ⟨Leads.goTo (fun i hi => hi.2 ▸ hs) h.leads, ?_⟩
  exact (Tracks.goTo hl hs.within h.tracks).mono (fun _ _ hi => ⟨hi.1, hi.2.2⟩)
    (fun _ _ _ hi => hi) fun _ _ hi => hi

/-- Looking up what the listing decides, and what follows it. -/
theorem Walks.lookUp {f : Memory → Except Fault β} {found : β} {g : β → Act σ α} {g' : β → Act τ α}
    (hf : ∀ m : Memory, m.Sound l frames → f m = .ok found)
    (h : ∀ b, Walks R C exact word l frames pre effect last (g b) (g' b)) :
    Walks R C exact word l frames pre effect last (lookIn f >>= g) (lookIn f >>= g') := by
  refine ⟨?_, (tracks_lookIn fun i j hi => ?_).bind fun b => ?_⟩
  · refine Leads.lookIn (fun i hi => ⟨found, hf _ hi.toSound⟩) fun b => ?_
    exact (h b).leads.mono (fun _ hi => hi.1) fun _ _ _ he => he
  · exact ⟨found, hf _ hi.1.running.toSound, hf _ hi.1.sound'⟩
  · exact (h b).tracks.mono (fun _ _ hi => hi.1) (fun _ _ _ hi => hi) fun _ _ hi => hi

theorem Walks.note {g : Act σ α} {g' : Act τ α} (entry entry' : Journal.Entry)
    (h : Walks R C exact word l frames pre effect last g g') :
    Walks R C exact word l frames pre effect last (Session.note entry >>= fun _ => g)
      (Session.note entry' >>= fun _ => g') :=
  ⟨h.leads.note entry, (tracks_note entry entry').bind fun _ => h.tracks⟩

end

omit [Host σ] in
@[simp]
theorem fail_bind (e : Error) (f : β → Act σ α) : (fail e >>= f) = fail e := rfl

theorem scans_evaluate :
    Scans R C exact word l frames (fun r i => ∀ e, r = .error e → e.column = i.textPos)
      (evaluate : Act σ (Except Error Int16)) (evaluate : Act τ (Except Error Int16)) :=
  .of reads_evaluate tracks_evaluate

theorem scans_expression :
    Scans R C exact word l frames (fun _ _ => True) (expression : Act σ Int16)
      (expression : Act τ Int16) := by
  refine scans_evaluate.bind fun r => ?_
  cases r with
  | ok x => exact walks_return fun _ _ => trivial
  | error e =>
    refine walks_fail rfl fun i hi _ => ?_
    rw [hi e rfl]
    exact i.ahead_self

theorem scans_target :
    Scans R C exact word l frames (fun _ _ => True) (target : Act σ Int16)
      (target : Act τ Int16) := by
  refine scans_evaluate.bind fun r => ?_
  cases r with
  | ok x => exact walks_return fun _ _ => trivial
  | error e => exact walks_fail rfl fun _ _ hc => Category.noConfusion hc

theorem scans_readVariable :
    Scans R C exact word l frames (fun _ _ => True) (readVariable : Act σ Variable)
      (readVariable : Act τ Variable) := by
  refine .cursor fun c c' hc => ?_
  have hskip := hc.skipBlanks
  cases hl : c.skipBlanks.letter? with
  | none =>
    simp only [hl, hskip.letter?_eq]
    refine walks_fail (by rw [hskip.pos_eq]) fun i hi _ => ?_
    exact Interpreter.ahead_of_within c.skipBlanks_within hi.2
  | some v =>
    simp only [hl, hskip.letter?_eq]
    have hne := Cursor.peek_ne_marker_of_letter? hl
    refine .goTo (hskip.advance hne).skipBlanks ?_ (walks_return fun _ _ => trivial)
    exact (Cursor.Skips.skipBlanks c).trans ((Cursor.Skips.letter hl).trans (.skipBlanks _))

theorem scans_expect {b : UInt8} (hb : b ≠ Byte.marker) (hq : Byte.isQuote b = false)
    (missing : Diagnostic) :
    Scans R C exact word l frames (fun _ _ => True) (expect b missing : Act σ Unit)
      (expect b missing : Act τ Unit) := by
  refine .cursor fun c c' hc => ?_
  obtain ⟨found, c₁, c₁', he, he', hlike⟩ := Cursor.Like.exists_read (hc.expect hb)
  have hskips : c.Skips (c.expect b).2 := .expect hb hq
  rw [he] at hskips
  rw [he, he']
  cases found with
  | true =>
    exact .goTo (g := pure ()) (k := pure ()) hlike hskips (walks_return fun _ _ => trivial)
  | false =>
    refine walks_fail (by rw [hlike.pos_eq]) fun i hi _ => ?_
    exact Interpreter.ahead_of_within hskips.within hi.2

theorem scans_endOfStatement :
    Scans R C exact word l frames
      (fun r i => (r = .ok () → i.AtEnd) ∧ ∀ e, r = .error e → e.column = i.textPos)
      (endOfStatement : Act σ (Except Error Unit))
      (endOfStatement : Act τ (Except Error Unit)) := by
  refine .cursor fun c c' hc => ?_
  simp only [hc.skipBlanks.atEndOfStatement_eq, hc.skipBlanks.pos_eq]
  refine .goTo hc.skipBlanks (.skipBlanks c) (walks_return fun i hi => ?_)
  constructor
  · intro hr
    by_cases hend : c.skipBlanks.atEndOfStatement = true
    · rw [Interpreter.AtEnd, hi, hend]
    · rw [if_neg hend] at hr
      cases hr
  · intro e he
    split at he
    · cases he
    · cases he
      exact (congrArg Cursor.pos hi).symm

theorem scans_expectEndOfStatement :
    Scans R C exact word l frames (fun _ i => i.AtEnd) (expectEndOfStatement : Act σ Unit)
      (expectEndOfStatement : Act τ Unit) := by
  refine scans_endOfStatement.bind fun r => ?_
  cases r with
  | ok u => exact walks_return fun i hi => hi.1 rfl
  | error e =>
    refine walks_fail rfl fun i hi _ => ?_
    rw [hi.2 e rfl]
    exact i.ahead_self

theorem scans_expectEndOfLine :
    Scans R C exact word l frames (fun _ _ => True) (expectEndOfLine : Act σ Unit)
      (expectEndOfLine : Act τ Unit) := by
  refine .cursor fun c c' hc => ?_
  simp only [hc.skipBlanks.atEndOfLine_eq, hc.skipBlanks.pos_eq]
  refine .goTo hc.skipBlanks (.skipBlanks c) (walks_ite (fun _ => ?_) fun _ => ?_)
  · exact walks_return fun _ _ => trivial
  · exact walks_fail rfl fun i hi _ => hi ▸ i.ahead_self

theorem scans_destination :
    Scans R C exact word l frames (fun _ i => i.AtEnd) (destination : Act σ UInt16)
      (destination : Act τ UInt16) := by
  refine scans_target.bind fun x => scans_endOfStatement.bind fun r => ?_
  cases r with
  | ok u => exact walks_return fun i hi => hi.1 rfl
  | error e => exact walks_fail rfl fun _ _ hc => Category.noConfusion hc

theorem scans_loopStep :
    Scans R C exact word l frames (fun _ _ => True) (loopStep : Act σ Int16)
      (loopStep : Act τ Int16) := by
  refine .cursor fun c c' hc => ?_
  obtain ⟨found, c₁, c₁', ht, ht', hlike⟩ := Cursor.Like.exists_read (hc.token LoopStep.vocabulary)
  rw [ht, ht']
  cases found with
  | none => exact walks_return fun _ _ => trivial
  | some word =>
    cases word
    exact .goTo hlike (.token (by decide) ht) (scans_expression.mono (fun _ _ => trivial)
      (fun _ _ _ h => h) fun _ _ _ h => h)

theorem scans_loopVariable :
    Scans R C exact word l frames (fun _ _ => True) (loopVariable : Act σ (Option Variable))
      (loopVariable : Act τ (Option Variable)) := by
  refine .cursor fun c c' hc => ?_
  simp only [hc.skipBlanks.atEndOfStatement_eq]
  refine walks_ite (fun _ => walks_return fun _ _ => trivial) fun _ => ?_
  exact scans_readVariable.bind fun v => walks_return fun _ _ => trivial

end LineBasic.Session
