import LineBasic.Proofs.Session.Alongside

namespace LineBasic

namespace Interpreter

/-- The interpreters are in the same state as far as it is of use, and in the very same if `exact`
holds. -/
abbrev Twin (exact : Prop) (floor : Nat) : Interpreter → Interpreter → Prop :=
  Coupled (.twin floor) exact

/-- Abreast again. More of the gap may be of use, unless no frame is left; then less of it may be.
-/
def AbreastOn (exact : Prop) (floor : Nat) (phase : Phase) (i j : Interpreter) : Prop :=
  ∃ floor', (floor' ≤ floor ∨ i.memory.stackTop = i.memory.size) ∧
    Abreast (.twin floor') exact i j phase

def AtPar (exact : Prop) (phase : Phase) (i j : Interpreter) : Prop :=
  ∃ floor l frames, Level (.twin floor) exact l frames phase i j

variable {exact : Prop} {floor : Nat} {l : Listing} {frames : List Frame} {phase phase' : Phase}
  {i j i' j' : Interpreter}

theorem Abreast.on (h : Abreast (.twin floor) exact i j phase) : AbreastOn exact floor phase i j :=
  ⟨floor, Or.inl (Nat.le_refl _), h⟩

theorem Twin.on (h : Twin exact floor i j) : AbreastOn exact floor .prompt i j :=
  ⟨floor, Or.inl (Nat.le_refl _), h⟩

theorem Level.atPar (h : Level (.twin floor) exact l frames phase i j)
    (hs : Successor phase i l frames phase' i') (ha : AbreastOn exact floor phase' i' j') :
    AtPar exact phase' i' j' := by
  obtain ⟨l', frames', hready, hcontinues⟩ := h.continues_next hs
  obtain ⟨floor', hfloor, habreast⟩ := ha
  refine ⟨floor', l', frames', hready, habreast, ?_⟩
  obtain hle | htop := hfloor
  · exact fun frame hm hl => Nat.le_trans hle (hcontinues frame hm hl)
  · rw [hready.sane.stack.eq_nil htop]
    exact Coupling.continues_nil _

/-- The interpreters have been set up alike; what has been done in them since does not matter. -/
structure SetAlike (exact : Prop) (i j : Interpreter) : Prop where
  layout : i.memory.Layout
  layout' : j.memory.Layout
  bounds : i.memory.SameBounds j.memory
  echo_eq : j.echo = i.echo
  random_eq : j.generator.random = i.generator.random
  same : exact → j = i

theorem Twin.setAlike (h : Twin exact floor i j) (hm : i.memory.Layout) : SetAlike exact i j :=
  ⟨hm, h.memory.layout hm, ⟨h.memory.size_eq, h.memory.variablesBegin_eq, h.memory.stackLimit_eq⟩,
    h.echo_eq,
    congrArg Generator.random h.generator_eq, h.same⟩

/-- After a cold start nothing of use is left of what was before. -/
theorem SetAlike.afresh (h : SetAlike exact i j) :
    Twin exact i.afresh.memory.variablesBegin i.afresh j.afresh := by
  have htwin := Memory.twin_cleared h.layout h.layout' h.bounds
  have hecho := h.echo_eq
  have hgenerator : j.generator.reseed 0 = i.generator.reseed 0 :=
    congrArg (Generator.ofSeed · 0) h.random_eq
  have hsame : exact → j.afresh = i.afresh := fun hexact => by rw [h.same hexact]
  unfold Interpreter.afresh at hsame ⊢
  generalize i.memory.cleared = m at htwin hsame ⊢
  generalize j.memory.cleared = m' at htwin hsame ⊢
  exact ⟨htwin, rfl, rfl, hgenerator, hecho, hsame⟩

theorem Twin.entryEnd_eq (h : Twin exact floor i j) : j.entryEnd = i.entryEnd := by
  have hdirect : j.directText = i.directText := h.direct
  have hv : j.memory.variablesBegin = i.memory.variablesBegin := h.memory.variablesBegin_eq
  unfold entryEnd
  rw [hdirect, hv, h.entryStart_eq]

end Interpreter

namespace Session
variable {σ τ α β : Type} {R : σ → τ → Prop} {exact : Prop} {floor : Nat} {l : Listing}
  {frames : List Frame}

open Interpreter (InStep Abreast AbreastOn Coupled Twin Level AtPar SetAlike TypedAlike)

theorem drifts_storeLine (number : UInt16) (body : Nat) :
    Drifts (storeLine number body : Act σ Unit) := by
  refine .bind (.onMemory (.insertStaged _ _)) fun ⟨removed, stored⟩ => ?_
  cases stored with
  | none => exact .ite (.bind (.note _) fun _ => .pure ()) (.pure ())
  | some length => exact .ite (.bind (.note _) fun _ => .note _) (.note _)

theorem drifts_entryLimit : Drifts (entryLimit : Act σ Nat) := by
  refine .bind (.look _) fun start => ?_
  refine .bind (.lookIn _) fun limit => ?_
  refine .bind (.look _) fun direct => ?_
  cases direct with
  | none => exact .pure _
  | some direct => exact .pure _

theorem tracks_reset {stop : Interpreter → Interpreter → Prop} : Tracks R exact (SetAlike exact)
    (fun _ i j => i.memory.stackTop = i.memory.size ∧ i.memory.Layout ∧
      Twin exact i.memory.variablesBegin i j) stop
    (reset : Act σ Unit) (reset : Act τ Unit) := by
  refine ⟨.bind (.look _) fun size => .bind (.note _) fun _ => .bind (.onMemory .clear) fun _ => ?_,
    fun s t hR hp _ => ?_⟩
  · refine .bind (.change (f := fun i => { i with generator := i.generator.reseed 0 })
      (fun _ => .refl _) (fun _ => rfl) fun _ => rfl)
      fun _ => .bind (.change (f := fun i => { i with currentLine := none, directText := none })
        (fun _ => .refl _)
        (fun _ => rfl) fun _ => rfl) fun _ => .onMemory .clearStack
  · refine .of_ok (reset_eq hp.layout) (reset_eq hp.layout')
      ⟨hR, ?_, Memory.layout_cleared hp.layout, hp.afresh⟩
    exact (Memory.stackTop_cleared _).trans (Memory.size_cleared _).symm

section
variable [Host σ]

theorem drifts_report (e : Error) : Drifts (report e : Act σ Phase) :=
  (@tracks_report σ σ Eq (.twin 0) True .empty [] _ _ Mirrors.refl e).drifts

theorem drifts_accept : Drifts (accept : Act σ Phase) := by
  refine .bind (.look _) fun start => ?_
  refine .bind (.onMemory (.foldCase _)) fun _ => ?_
  refine .bind (.onMemory (.stage _)) fun staged => ?_
  refine .bind (.look _) fun ram => ?_
  refine .bind (.change (f := fun i => { i with currentLine := none }) (fun _ => .refl _)
    (fun _ => rfl) fun _ => rfl) fun _ => ?_
  refine .ite (.bind (.change (f := fun i => { i with textPos := _, directText := _ })
    (fun _ => .refl _) (fun _ => rfl) fun _ => rfl)
    fun _ => .pure _) (.ite (drifts_report _) (.bind (.attempt (drifts_storeLine _ _)) fun r => ?_))
  cases r with
  | ok u => exact .pure _
  | error e => exact drifts_report e

end

section
variable [Host σ] [Host τ] (hR : Mirrors R)
include hR

/-- The same line is taken alike: it is stored or refused in both, or gets ready to be executed. -/
theorem tracks_accept : Tracks R exact
    (fun i j => ∃ line, TypedAlike (.twin floor) exact line i j ∧ i.memory.Sound l frames)
    (fun phase i j => AbreastOn exact floor phase i j)
      (fun i j => AbreastOn exact floor .prompt i j)
    (accept : Act σ Phase) (accept : Act τ Phase) := by
  refine ⟨drifts_accept, fun s t hhosts hp hpeeks => ?_⟩
  obtain ⟨line, ⟨htwin, ht, ht'⟩, hs⟩ := hp
  have hs' := htwin.memory.sound hs
  have hm := hs.layout
  -- What has been staged is of use as well.
  have hstart : t.interpreter.memory.stagingStart line =
      s.interpreter.memory.stagingStart line := by
    simp only [Memory.stagingStart, htwin.memory.variablesBegin_eq]
  have hbody : t.interpreter.memory.bodyStart line = s.interpreter.memory.bodyStart line := by
    simp only [Memory.bodyStart, htwin.memory.variablesBegin_eq]
  have htaken : Twin exact (min floor (s.interpreter.memory.stagingStart line))
    (s.taken line).interpreter
      (t.taken line).interpreter :=
    ⟨htwin.memory.taken hm ht, rfl, htwin.direct, htwin.generator_eq, htwin.echo_eq,
      fun he => by rw [taken, taken, htwin.same he]⟩
  have hsound : (s.taken line).interpreter.memory.Sound l frames := hs.onlyGap (ht.onlyGap_taken hm)
  have hle : min floor (s.interpreter.memory.stagingStart line) ≤ floor := Nat.min_le_left _ _
  have hrefused (e : Error) (hrun : accept s = report e (s.taken line))
    (hrun' : accept t = report e (t.taken line)) :
      Pairs (accept s) (accept t)
        (fun phase s' t' => R s'.host t'.host ∧ AbreastOn exact floor phase s'.interpreter
          t'.interpreter)
        fun _ s' t' => R s'.host t'.host ∧ AbreastOn exact floor .prompt s'.interpreter
          t'.interpreter := by
    rw [hrun] at hpeeks ⊢
    rw [hrun']
    refine ((tracks_report hR e).pairs (s.taken line) (t.taken line) hhosts
      ⟨htaken, hsound, fun a ha => ?_⟩
      hpeeks).mono (fun _ _ _ h => ⟨h.1, _, Or.inl hle, h.2⟩) fun _ _ _ h =>
        ⟨h.1, _, Or.inl hle, h.2⟩
    cases ha
  by_cases hzero : entryNumber line = 0
  · have hrun := accept_direct hs ht hzero
    have hrun' := accept_direct hs' ht' hzero
    rw [hbody, hstart] at hrun'
    have hready := (htaken.atPos (s.interpreter.memory.bodyStart line)).atDirect
      (show some (s.interpreter.memory.stagingStart line) = _ from rfl)
    refine .of_ok hrun hrun' ⟨hhosts, _, Or.inl hle, hready, rfl, fun _ => ?_⟩
    have hbegin := s.interpreter.memory.stagingStart_le_bodyStart line
    show min floor (s.interpreter.memory.stagingStart line) ≤ s.interpreter.memory.bodyStart line
    omega
  by_cases hmax : entryNumber line = 65535
  · have hrun' := accept_invalid hs' ht' hmax
    rw [hbody] at hrun'
    exact hrefused _ (accept_invalid hs ht hmax) hrun'
  by_cases hfit : l.Fits s.interpreter.memory.variablesBegin (entryNumber line) (entryText line)
  · obtain ⟨m, journal, hrun, hinsert, hmerged⟩ := accept_stored hs ht hzero hmax hfit
    obtain ⟨m', journal', hrun', hinsert', hmerged'⟩ :=
      accept_stored hs' ht' hzero hmax (htwin.memory.variablesBegin_eq ▸ hfit)
    obtain ⟨floor', hfloor, hafter⟩ := htaken.memory.merged hsound.layout hmerged hmerged'
    refine .of_ok hrun hrun' ⟨hhosts, floor', hfloor.imp_left (Nat.le_trans · hle), hafter, rfl,
      htwin.direct,
      htwin.generator_eq, htwin.echo_eq, fun he => ?_⟩
    have hsame := htwin.same he
    rw [hsame, hinsert] at hinsert'
    obtain ⟨-, rfl⟩ := EStateM.Result.ok.inj hinsert'
    simp only [taken, withMemory, hsame]
  · refine hrefused _ (accept_full hs ht hzero hmax hfit) (accept_full hs' ht' hzero hmax ?_)
    rw [htwin.memory.variablesBegin_eq]
    exact hfit

theorem tracks_greet : Tracks R exact (SetAlike exact)
    (fun phase i j => AbreastOn exact floor phase i j)
      (fun i j => AbreastOn exact floor .prompt i j)
    (greet : Act σ Phase) (greet : Act τ Phase) := by
  have hstop (i j : Interpreter) (h : i.memory.stackTop = i.memory.size ∧ i.memory.Layout ∧
      Twin exact i.memory.variablesBegin i j) : AbreastOn exact floor .prompt i j :=
    ⟨_, Or.inr h.1, h.2.2⟩
  have hfree (i j : Interpreter) (h : i.memory.stackTop = i.memory.size ∧ i.memory.Layout ∧
      Twin exact i.memory.variablesBegin i j) :
      i.memory.Layout ∧ j.memory.free = i.memory.free :=
    ⟨h.2.1, Coupling.free_eq _ trivial h.2.2.memory⟩
  refine tracks_reset.bind fun _ => ?_
  refine (tracks_printLine hR hstop _).bind fun _ => ?_
  refine (tracks_printFree hR hstop hfree).bind fun _ => ?_
  exact tracks_pure fun i j h => hstop i j h

theorem tracks_takeFor (purpose : Purpose) : Tracks R exact
    (fun i j => (∃ line, TypedAlike (.twin floor) exact line i j) ∧ i.Asking l frames purpose ∧
      (Coupling.twin floor).Awaits i.currentLine purpose)
    (fun phase i j => AbreastOn exact floor phase i j)
      (fun i j => AbreastOn exact floor .prompt i j)
    (takeFor purpose : Act σ Phase) (takeFor purpose : Act τ Phase) := by
  cases purpose with
  | command =>
    refine (@tracks_accept σ τ R exact floor l frames _ _ hR).mono (fun i j h => ?_)
      (fun _ _ _ h => h) fun _ _ h => h
    obtain ⟨⟨line, htyped⟩, hasking, -⟩ := h
    exact ⟨line, htyped, hasking.sane.toSound⟩
  | reply v resume =>
    refine tracks_takeReply.mono (fun i j h => ?_) (fun _ _ _ h => h.on) fun _ _ h => h
    obtain ⟨⟨line, htyped⟩, hasking, hreaches⟩ := h
    exact ⟨line, htyped, hasking.sane.layout, hreaches⟩

omit hR in
omit [Host τ] in
theorem drifts_typeByte (purpose : Purpose) (pos : Nat) :
    Drifts (typeByte purpose pos : Act σ Phase) := by
  rw [typeByte_eq]
  refine .bind (.look _) fun start => ?_
  refine .bind drifts_entryLimit fun limit => ?_
  refine .bind (.look _) fun echo => ?_
  refine .bind (.onHost _) fun b => ?_
  exact (@tracks_takeByte σ σ Eq (.twin 0) True .empty [] _ _ Mirrors.refl purpose pos start limit
    limit b echo
    (fun phase i j => AbreastOn True 0 phase i j) (fun i j => AbreastOn True 0 .prompt i j)
      (fun _ => Iff.rfl)
    (fun _ _ _ h => h.on) (fun _ _ h => Twin.on h) (tracks_takeFor Mirrors.refl purpose)).drifts

theorem tracks_typeByte (purpose : Purpose) (pos : Nat) : Tracks R exact
    (Level (.twin floor) exact l frames (.edit purpose pos))
      (fun phase i j => AbreastOn exact floor phase i j)
    (fun i j => AbreastOn exact floor .prompt i j) (typeByte purpose pos : Act σ Phase)
    (typeByte purpose pos : Act τ Phase) := by
  refine ⟨drifts_typeByte purpose pos, fun s t hhosts h hpeeks => ?_⟩
  refine pairs_typeByte hR hhosts h hpeeks ?_ (fun _ _ _ h => h.on) (fun _ _ h => Twin.on h)
    (tracks_takeFor hR purpose)
  rw [Twin.entryEnd_eq h.coupled]
  cases Host.read s.host with
  | ok b host => exact fun _ => Iff.rfl
  | error e host => exact trivial

theorem tracks_step (phase : Phase) : Tracks R exact (Level (.twin floor) exact l frames phase)
    (fun phase' i j => AbreastOn exact floor phase' i j)
      (fun i j => AbreastOn exact floor .prompt i j)
    (step phase : Act σ Phase) (step phase : Act τ Phase) := by
  by_cases hp : phase.Moves
  · exact (tracks_moves hR hp).mono (fun _ _ h => ⟨h, fun _ _ => trivial⟩) (fun _ _ _ h => h.on)
      fun _ _ h => Twin.on h
  cases phase with
  | cold =>
    exact (tracks_greet hR).mono (fun _ _ h => Twin.setAlike h.abreast h.ready.sane.layout)
      (fun _ _ _ h => h)
      fun _ _ h => h
  | edit purpose pos => exact tracks_typeByte hR purpose pos
  | _ => exact absurd trivial hp

theorem tracks_advance (phase : Phase) :
    Tracks R exact (AtPar exact phase) (fun phase' i j => AtPar exact phase' i j)
    (AtPar exact .prompt) (step phase : Act σ Phase) (step phase : Act τ Phase) := by
  refine ⟨(@tracks_step σ τ R exact 0 .empty [] _ _ hR phase).drifts,
    fun s t hhosts hp hpeeks => ?_⟩
  obtain ⟨floor, l, frames, h⟩ := hp
  refine (((tracks_step hR phase).pairs s t hhosts h hpeeks).and_ends (step_ends h.ready)).mono
    (fun _ _ _ hr => ?_) fun _ _ _ hr => ?_
  · obtain ⟨⟨hhosts', hon⟩, hsuccessor⟩ := hr
    exact ⟨hhosts', h.atPar hsuccessor hon⟩
  · obtain ⟨⟨hhosts', hon⟩, -, hsuccessor⟩ := hr
    exact ⟨hhosts', h.atPar hsuccessor hon⟩

theorem tracks_drive (atRest : Phase → Bool) (steps : Nat) (phase : Phase) :
    Tracks R exact (AtPar exact phase)
    (fun phase' i j => AtPar exact phase' i j) (AtPar exact .prompt)
      (drive atRest steps phase : Act σ Phase)
    (drive atRest steps phase : Act τ Phase) := by
  induction steps generalizing phase with
  | zero => exact tracks_pure fun _ _ h => h
  | succ steps ih =>
    rw [drive_succ_eq, drive_succ_eq]
    exact tracks_ite (fun _ => tracks_pure fun _ _ h => h) fun _ =>
      (tracks_advance hR phase).bind fun phase' => ih phase'

theorem tracks_serve (steps : Nat) : Tracks R exact
    (fun i j => SetAlike exact i j ∧ ∃ l frames, i.memory.Sane l frames)
      (fun phase i j => AtPar exact phase i j)
    (AtPar exact .prompt) (serve (steps + 1) : Act σ Phase) (serve (steps + 1) : Act τ Phase) := by
  unfold serve
  rw [drive_succ_eq, drive_succ_eq]
  have hgreet := @tracks_greet σ τ R exact 0 _ _ hR
  refine Tracks.bind (P := fun phase i j => AtPar exact phase i j)
    ⟨hgreet.drifts, fun s t hhosts hp hpeeks => ?_⟩
    fun phase => tracks_drive hR _ steps phase
  obtain ⟨hset, l, frames, hs⟩ := hp
  refine ((hgreet.pairs s t hhosts hset hpeeks).and_ends (takes_greet s hs)).mono
    (fun phase s' t' hr => ?_)
    fun e s' t' hr => ?_
  · obtain ⟨⟨hhosts', floor', -, habreast⟩, hready⟩ := hr
    exact ⟨hhosts', floor', .empty, [], hready, habreast, Coupling.continues_nil _⟩
  · obtain ⟨⟨hhosts', floor', -, habreast⟩, -, hsane⟩ := hr
    exact ⟨hhosts', floor', .empty, [], hsane, habreast, Coupling.continues_nil _⟩

end

section
variable [Host σ]

theorem drifts_step (phase : Phase) : Drifts (step phase : Act σ Phase) :=
  (@tracks_step σ σ Eq True 0 .empty [] _ _ Mirrors.refl phase).drifts

theorem drifts_drive (atRest : Phase → Bool) (steps : Nat) (phase : Phase) :
    Drifts (drive atRest steps phase : Act σ Phase) :=
  (@tracks_drive σ σ Eq True _ _ Mirrors.refl atRest steps phase).drifts

theorem drifts_submit (line : List UInt8) : Drifts (submit line : Act σ Phase) := by
  refine .bind (.change (f := fun i => { i with directText := none }) (fun _ => .refl _)
    (fun _ => rfl) fun _ => rfl) fun _ => ?_
  refine .bind drifts_entryLimit fun limit => ?_
  refine .bind (.look _) fun start => ?_
  refine .bind (.onMemory (.placeEntry _)) fun _ => ?_
  exact drifts_accept

theorem drifts_enter (steps : Nat) (line : List UInt8) : Drifts (enter steps line : Act σ Phase) :=
  .bind (drifts_submit line) fun phase => drifts_drive _ steps phase

end
end Session
end LineBasic
