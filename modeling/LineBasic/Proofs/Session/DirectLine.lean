import LineBasic.Proofs.Session.History
import LineBasic.Proofs.Session.OneLine

namespace LineBasic

def Phase.Executes : Phase → Prop
  | .direct | .line | .poll | .execute | .proceed | .nextLine | .ask (.reply ..) | .edit
    (.reply ..) _ =>
    True
  | _ => False

def Phase.TypesBelow (d : Nat) : Phase → Prop
  | .edit _ pos => pos < d
  | _ => True

namespace Interpreter

def Reaches (i : Interpreter) (floor pos : Nat) : Prop :=
  i.currentLine = none → floor ≤ pos

def Continues (frames : List Frame) (floor : Nat) : Prop :=
  ∀ frame ∈ frames, frame.line = none → floor ≤ frame.pos

/-- What is left where the program goes on after the line that is asked for is of use. -/
def Awaits (i : Interpreter) (floor : Nat) : Purpose → Prop
  | .command => True
  | .reply _ resume => i.Reaches floor resume

variable {d : Nat} {l : Listing} {frames frames' : List Frame} {phase phase' : Phase}
  {i j k : Interpreter}

/-- From `d` up to the variables the second interpreter has the same bytes. It has the same direct
line, and its program ends at the same place. -/
structure Spares (d : Nat) (i j : Interpreter) : Prop where
  directText_eq : j.directText = i.directText
  programEnd_eq : j.memory.programEnd = i.memory.programEnd
  variablesBegin_eq : j.memory.variablesBegin = i.memory.variablesBegin
  agree : Memory.Agree i.memory.ram j.memory.ram d i.memory.variablesBegin

theorem Spares.of_memory (hm : j.memory = i.memory) (hd : j.directText = i.directText) :
    Spares d i j :=
  ⟨hd, by rw [hm], by rw [hm], fun _ _ _ => by rw [hm]⟩

theorem Spares.refl (d : Nat) (i : Interpreter) : Spares d i i :=
  .of_memory rfl rfl

theorem Spares.trans (h : Spares d i j) (h' : Spares d j k) : Spares d i k := by
  refine ⟨h'.directText_eq.trans h.directText_eq, h'.programEnd_eq.trans h.programEnd_eq,
    h'.variablesBegin_eq.trans h.variablesBegin_eq, h.agree.trans ?_⟩
  rw [← h.variablesBegin_eq]
  exact h'.agree

theorem Spares.mono {d' : Nat} (h : Spares d i j) (hd : d ≤ d') : Spares d' i j :=
  { h with agree := h.agree.mono hd (Nat.le_refl _) }

theorem ReadOn.spares (h : i.ReadOn j) : Spares d i j :=
  .of_memory h.memory_eq h.directText_eq

/-- A change of the buffer that leaves the bytes below the variables alone, and of the place of
execution. -/
theorem Spares.below {m : Memory} (hr : i.memory.SameRegions m)
    (ha : Memory.Agree i.memory.ram m.ram 0 i.memory.variablesBegin) (current : Option Nat)
    (pos : Nat) :
    Spares 0 i { i with memory := m, currentLine := current, textPos := pos } :=
  ⟨rfl, hr.programEnd_eq, hr.variablesBegin_eq, ha⟩

theorem Running.spares (h : i.Running l frames) (he : Effect l frames i phase frames' j) :
    Spares 0 i j := by
  cases he with
  | pass hr => exact hr.spares
  | ask v hr => exact hr.spares
  | @store k v x hr =>
    have hk := hr.running h
    exact hr.spares.trans (.below (k.memory.sameRegions_stored v x) (hk.agree_stored v x) _ _)
  | @run k hr =>
    exact hr.spares.trans (.below (k.memory.sameRegions_stackTop k.memory.size)
    (fun _ _ _ => rfl) _ _)
  | @finish k hr => exact hr.spares.trans (.of_memory rfl rfl)
  | @jump k number hr => exact hr.spares.trans (.of_memory rfl rfl)
  | @call k number hr he hroom =>
    have hk := hr.running h
    exact hr.spares.trans (.below (k.memory.sameRegions_pushed _) (hk.agree_pushed hroom) _ _)
  | @goBack k before after line pos hr hf hb =>
    subst hf
    have hk := hr.running h
    exact hr.spares.trans (.below (k.memory.sameRegions_removed _ _) hk.agree_removed _ _)
  | @loop k v initial terminal step hr he hroom =>
    have hk := hr.running h
    have hpushed := hk.pushed (.loop v terminal step _ _) (hk.resumes_self he) hroom
    have hregions :=
      (k.memory.sameRegions_pushed (.loop v terminal step k.currentLine k.textPos)).trans
      (Memory.sameRegions_stored v initial)
    have hstored := hpushed.agree_stored v initial
    rw [Memory.variablesBegin_pushed] at hstored
    exact hr.spares.trans (.below hregions ((hk.agree_pushed hroom).trans hstored) _ _)
  | @again k before after v terminal step line pos named hr hf hv hb hs =>
    have hk := hr.running h
    have hstored := k.memory.sameRegions_stored v (k.memory.value v + step)
    have hunwound := Memory.sameRegions_stackTop (k.memory.stored v (k.memory.value v + step))
      (k.memory.stackTop + depth before)
    exact hr.spares.trans (.below (hstored.trans hunwound) (hk.agree_stored v _) _ _)
  | @leave k before after v terminal step line pos named hr hf hv hb hs =>
    have hk := hr.running h
    have hstored := k.memory.sameRegions_stored v (k.memory.value v + step)
    have hdropped := Memory.sameRegions_stackTop (k.memory.stored v (k.memory.value v + step))
      (k.memory.stackTop + depth before + (Frame.loop v terminal step line pos).size)
    exact hr.spares.trans (.below (hstored.trans hdropped) (hk.agree_stored v _) _ _)

/-- The direct line that begins at `d` is being executed. A reply to it is typed below `d`. -/
structure Underway (d : Nat) (phase : Phase) (i : Interpreter) : Prop where
  executes : phase.Executes
  directText_eq : i.directText = some d
  lt : i.memory.entryStart < d
  typesBelow : phase.TypesBelow d

theorem Underway.spared (h : Underway d phase i) (hs : Spares d i j) (he : phase'.Executes)
    (ht : phase'.TypesBelow d) : Underway d phase' j where
  executes := he
  directText_eq := hs.directText_eq.trans h.directText_eq
  lt := by
    have hlt := h.lt
    unfold Memory.entryStart at hlt ⊢
    rwa [hs.programEnd_eq]
  typesBelow := ht

/-- In a direct line execution does not stand below `d`, nor does it go on below `d` after a reply.
-/
def StaysAbove (d : Nat) (i : Interpreter) : Phase → Prop
  | .direct | .poll | .execute | .proceed | .nextLine => i.Reaches d i.textPos
  | .ask purpose | .edit purpose _ => i.Awaits d purpose
  | _ => True

/-- What a step leads to while the direct line that begins at `d` is executed: the line is spared,
no other has begun, and execution stays above `d` if all frames continue above it. -/
structure Carried (d : Nat) (frames : List Frame) (phase : Phase) (i : Interpreter) (phase' : Phase)
    (j : Interpreter) :
    Prop where
  ne_direct : phase' ≠ .direct
  underway : Underway d phase' j
  spares : Spares d i j
  staysAbove : Continues frames d → i.StaysAbove d phase → j.StaysAbove d phase'

theorem Underway.carried (h : Underway d phase i) (hm : j.memory = i.memory)
    (hd : j.directText = i.directText) (he : phase'.Executes) (hne : phase' ≠ .direct)
    (ht : phase'.TypesBelow d) (ha : i.StaysAbove d phase → j.StaysAbove d phase') :
    Carried d frames phase i phase' j :=
  ⟨hne, h.spared (.of_memory hm hd) he ht, .of_memory hm hd, fun _ => ha⟩

end Interpreter

section
variable {d : Nat} {l : Listing} {frames frames' : List Frame} {phase : Phase} {i j : Interpreter}

/-- A statement is followed by no other direct line, and no line is typed yet. -/
theorem Effect.typesBelow (he : Effect l frames i phase frames' j) (d : Nat) :
    phase ≠ .direct ∧ phase.TypesBelow d := by
  cases he with
  | pass _ hp =>
    simp only [List.mem_cons, List.not_mem_nil, or_false] at hp
    rcases hp with rfl | rfl | rfl | rfl
    all_goals exact ⟨by decide, trivial⟩
  | ask => exact ⟨(nomatch ·), trivial⟩
  | _ => exact ⟨by decide, trivial⟩

theorem Effect.staysAbove (he : Effect l frames i phase frames' j) (hi : i.Reaches d i.textPos)
    (hc : Interpreter.Continues frames d) : j.StaysAbove d phase := by
  have hread {k : Interpreter} (hr : i.ReadOn k) (hl : k.currentLine = none) : d ≤ k.textPos :=
    Nat.le_trans (hi (hr.currentLine_eq ▸ hl)) hr.le
  -- Execution goes on where the statement ended, or where a frame continues, and both are above.
  cases he with
  | @pass _ k hr hp =>
    have hk : j.Reaches d j.textPos := hread hr
    simp only [List.mem_cons, List.not_mem_nil, or_false] at hp
    rcases hp with rfl | rfl | rfl | rfl
    · exact hk
    · exact hk
    · exact trivial
    · exact trivial
  | ask v hr => exact hread hr
  | @store k v x hr => exact hread (k := k) hr
  | run => exact trivial
  | finish => exact trivial
  | jump => exact trivial
  | call => exact trivial
  | @goBack k before after line pos hr hf hb =>
    have hm : Frame.gosub line pos ∈ frames := hf ▸ List.mem_append_right _ List.mem_cons_self
    exact hc _ hm
  | @loop k v initial terminal step hr => exact hread (k := k) hr
  | @again k before after v terminal step line pos named hr hf =>
    have hm : Frame.loop v terminal step line pos ∈ frames :=
      hf ▸ List.mem_append_right _ List.mem_cons_self
    exact hc _ hm
  | @leave k before after v terminal step line pos named hr => exact hread (k := k) hr

end

namespace Session
variable {σ : Type} {d : Nat} {l : Listing} {frames : List Frame} {s : Session σ}

open Interpreter (Underway Spares Carried)

theorem carried_line (h : Underway d .line s.interpreter) : Ends (line s)
    (fun phase' s' => phase'.Executes → Carried d frames .line s.interpreter phase' s'.interpreter)
      fun _ _ => True := by
  refine Ends.after_ok (show look (·.currentLine) s = .ok s.interpreter.currentLine s from rfl) ?_
  cases hc : s.interpreter.currentLine with
  | none => exact Ends.of_ok rfl fun hx => absurd hx id
  | some address =>
    refine Ends.after_ok (show look (·.memory.programEnd) s = .ok s.interpreter.memory.programEnd s
      from rfl) ?_
    by_cases hlt : address < s.interpreter.memory.programEnd
    · rw [if_pos hlt]
      refine Ends.of_ok rfl fun hx => h.carried rfl rfl hx (by decide) trivial fun _ hn => ?_
      rw [show s.interpreter.currentLine = none from hn] at hc
      cases hc
    · rw [if_neg hlt]
      exact Ends.of_ok rfl fun hx => absurd hx id

theorem carried_proceed (h : Underway d .proceed s.interpreter) : Ends (proceed s)
    (fun phase' s' => phase'.Executes → Carried d frames .proceed s.interpreter phase'
      s'.interpreter)
    fun _ _ => True := by
  have hw : s.interpreter.cursor.Within (s.interpreter.cursor.moveTo
      (s.interpreter.cursor.rest.dropWhile (· = byte ':'))).skipBlanks :=
    (Cursor.moveTo_within _ _).trans (Cursor.skipBlanks_within _)
  have hle : s.interpreter.textPos ≤ _ := hw.le
  refine Ends.of_ok rfl ?_
  split
  · exact fun hx => h.carried rfl rfl hx (by decide) trivial fun ha hn => Nat.le_trans (ha hn) hle
  · exact fun hx => h.carried rfl rfl hx (by decide) trivial fun ha hn => Nat.le_trans (ha hn) hle

theorem carried_nextLine (hs : s.interpreter.Running l frames)
    (h : Underway d .nextLine s.interpreter) :
    Ends (nextLine s)
      (fun phase' s' => phase'.Executes → Carried d frames .nextLine s.interpreter phase'
        s'.interpreter)
      fun _ _ => True := by
  refine Ends.after_ok (show look (·.currentLine) s = .ok s.interpreter.currentLine s from rfl) ?_
  cases hc : s.interpreter.currentLine with
  | none => exact Ends.of_ok rfl fun hx => absurd hx id
  | some address =>
    obtain ⟨line, hstarts, -, -⟩ : l.Inside s.interpreter.memory.variablesBegin (some address)
      s.interpreter.textPos := hc ▸ hs.inside
    have hat : Memory.LineAt s.interpreter.memory l line address := ⟨hstarts, hs.holds, hs.layout⟩
    exact Ends.after_ok (lookIn_of_ok hat.nextLine_eq) fun hx =>
      h.carried rfl rfl hx (by decide) trivial fun _ => trivial

variable [Host σ]

theorem carried_poll (hs : s.interpreter.Running l frames) (h : Underway d .poll s.interpreter) :
    Ends (poll s)
    (fun phase' s' => phase'.Executes → Carried d frames .poll s.interpreter phase' s'.interpreter)
      fun _ _ => True := by
  refine Ends.bind ((talks_interrupted s hs.layout).mono (fun _ _ h => h) fun _ _ _ => trivial)
    fun stop s' hi => ?_
  cases stop with
  | true =>
    refine Ends.bind ((talks_printLine _ s' (hi ▸ hs.layout)).mono (fun _ _ h => h)
      fun _ _ _ => trivial) fun _ s' _ => ?_
    exact Ends.of_ok rfl fun hx => absurd hx id
  | false =>
    refine Ends.of_ok rfl fun hx => ?_
    rw [hi]
    exact h.carried rfl rfl hx (by decide) trivial fun ha => ha

/-- Only a statement that goes through is followed by others of the same line. -/
theorem carried_execute (hs : s.interpreter.Running l frames)
    (h : Underway d .execute s.interpreter) :
    Ends (execute s)
      (fun phase' s' => phase'.Executes → Carried d frames .execute s.interpreter phase'
        s'.interpreter)
      fun _ _ => True := by
  refine (execute_executed hs).mono (fun phase s' hr hx => ?_) fun _ _ _ => trivial
  cases hr with
  | done he =>
    obtain ⟨hne, htypes⟩ := he.typesBelow d
    have hspares := (hs.spares he).mono (Nat.zero_le d)
    exact ⟨hne, h.spared hspares hx htypes, hspares, fun hc ha => he.staysAbove ha hc⟩
  | emptied hc =>
    rw [hc.phase_eq] at hx
    exact absurd hx id
  | reported hp =>
    simp only [List.mem_cons, List.not_mem_nil, or_false] at hp
    rcases hp with rfl | rfl
    · exact absurd hx id
    · exact absurd hx id

theorem carried_ask {v : Variable} {resume : Nat} (hs : s.interpreter.memory.Layout)
    (h : Underway d (.ask (.reply v resume)) s.interpreter) : Ends (ask (.reply v resume) s)
      (fun phase' s' => phase'.Executes → Carried d frames (.ask (.reply v resume)) s.interpreter
        phase' s'.interpreter)
      fun _ _ => True := by
  refine Ends.bind ((talks_writeByte _ s hs).mono (fun _ _ h => h) fun _ _ _ => trivial)
    fun _ s' hi => ?_
  refine Ends.of_ok rfl fun hx => ?_
  rw [hi]
  exact h.carried rfl rfl hx (nomatch ·) h.lt fun ha => ha

/-- Taking a reply changes nothing from its end up to the variables. -/
theorem Replied.spares {v : Variable} {resume : Nat} {line : List UInt8} {i j : Interpreter}
    {phase : Phase} (h : Replied v resume line i phase j) (ha : i.Asking l frames (.reply v resume))
    (ht : i.memory.Typed line) (hd : i.memory.entryStart + line.length ≤ d) : Spares d i j := by
  have hfits := ht.le_size ha.sane.layout
  have hfolded : Memory.Agree i.memory.ram (i.memory.folded line).ram d
      i.memory.variablesBegin := by
    refine Memory.agree_overwrite_above ?_ ?_
    · rw [Case.length_fold]
      omega
    · rw [Case.length_fold]
      exact hd
  cases h with
  | stored x generator =>
    have hstored := (ha.folded ht).sane.agree_stored v x
    exact ⟨rfl, rfl, rfl, hfolded.trans (hstored.mono (Nat.zero_le d) (Nat.le_refl _))⟩
  | rejected generator pos => exact ⟨rfl, rfl, rfl, hfolded⟩

theorem Replied.goesOn {v : Variable} {resume : Nat} {line : List UInt8} {i j : Interpreter}
    {phase : Phase} (h : Replied v resume line i phase j) (d : Nat) :
    phase ≠ .direct ∧ phase.TypesBelow d ∧ (i.Awaits d (.reply v resume) →
    j.StaysAbove d phase) := by
  cases h with
  | stored x generator => exact ⟨by decide, trivial, fun ha => ha⟩
  | rejected generator pos => exact ⟨(nomatch ·), trivial, fun ha => ha⟩

theorem carried_typeByte {v : Variable} {resume pos : Nat}
    (hs : s.interpreter.Asking l frames (.reply v resume)) (hp : s.interpreter.memory.Typing pos)
    (h : Underway d (.edit (.reply v resume) pos) s.interpreter) :
    Ends (typeByte (.reply v resume) pos s)
      (fun phase' s' => phase'.Executes →
        Carried d frames (.edit (.reply v resume) pos) s.interpreter phase' s'.interpreter)
      fun _ _ => True := by
  have hm := hs.sane.layout
  have hv := hm.variables_le_size
  have hlt : pos < d := h.typesBelow
  have hroom := hp.lt
  have htyped (b : UInt8) : Spares d s.interpreter
      { s.interpreter with memory := s.interpreter.memory.typed pos b } := by
    refine ⟨rfl, rfl, rfl, Memory.agree_overwrite_above ?_ ?_⟩
    · show pos + 1 ≤ s.interpreter.memory.size
      omega
    · show pos + 1 ≤ d
      omega
  have hend : s.interpreter.entryEnd < d := by
    unfold Interpreter.entryEnd
    rw [h.directText_eq]
    exact Nat.lt_of_le_of_lt (Nat.min_le_right _ _) (by omega)
  have htakes : Takes (· = s.interpreter)
      (fun phase' j => phase'.Executes → Carried d frames (.edit (.reply v resume) pos)
        s.interpreter phase' j)
      (fun _ => True) (typeByte (.reply v resume) pos : Act σ Phase) := by
    refine takes_typeByte_of hm hp (fun j pos' hj _ hpos' hx => ?_) (fun _ _ => trivial) fun t ht =>
      ?_
    · have hbelow : pos' < d := by omega
      obtain rfl | ⟨b, rfl⟩ := hj
      · exact h.carried rfl rfl hx (nomatch ·) hbelow fun ha => ha
      · exact ⟨(nomatch ·), h.spared (htyped b) hx hbelow, htyped b, fun _ ha => ha⟩
    · -- The reply ends at its marker or before it, so that nothing above is folded.
      have hmarked : t.interpreter.Asking l frames (.reply v resume) := ht ▸ hs.typed hp Byte.marker
      have hreply : t.interpreter.memory.Typed (Cursor.rest
          ⟨t.interpreter.memory.ram, t.interpreter.memory.entryStart⟩) := ht ▸ hp.typed_marker hm
      have hshort : endOfLine t.interpreter.memory.ram t.interpreter.memory.entryStart < d :=
        ht ▸ Nat.lt_of_le_of_lt (hp.endOfLine_typed_le hm) hlt
      have hspares : Spares d s.interpreter t.interpreter := ht ▸ htyped Byte.marker
      have hcurrent : t.interpreter.currentLine = s.interpreter.currentLine := by rw [ht]
      have hrest := Cursor.pos_add_length_rest ⟨t.interpreter.memory.ram,
        t.interpreter.memory.entryStart⟩
      dsimp only at hrest
      refine (takeReply_replied hmarked.sane.layout hreply).mono (fun phase' t' hr hx => ?_)
        fun _ _ hh => absurd hh id
      have hafter := hspares.trans (hr.spares hmarked hreply (by omega))
      obtain ⟨hne, htypes, habove⟩ := hr.goesOn d
      exact ⟨hne, h.spared hafter hx htypes, hafter, fun _ ha => habove
        fun hn => ha (hcurrent ▸ hn)⟩
  exact (htakes s rfl).mono (fun _ _ h => h) fun _ _ _ => trivial

theorem carried_step {phase : Phase} (hs : s.interpreter.Ready l frames phase)
    (h : Underway d phase s.interpreter) :
    Ends (step phase s)
      (fun phase' s' => phase'.Executes → Carried d frames phase s.interpreter phase'
        s'.interpreter)
      fun _ _ => True := by
  cases phase with
  | cold | restart | prompt | bye => exact absurd h.executes id
  | direct =>
    refine Ends.of_ok (a := if s.interpreter.cursor.atEndOfLine = true then .prompt else .poll) rfl
      ?_
    split
    · exact fun hx => absurd hx id
    · exact fun hx => h.carried rfl rfl hx (by decide) trivial fun ha => ha
  | line => exact carried_line h
  | poll => exact carried_poll hs h
  | execute => exact carried_execute hs h
  | proceed => exact carried_proceed h
  | nextLine => exact carried_nextLine hs h
  | ask purpose =>
    cases purpose with
    | command => exact absurd h.executes id
    | reply v resume => exact carried_ask (Interpreter.Ready.sane hs).layout h
  | edit purpose pos =>
    cases purpose with
    | command => exact absurd h.executes id
    | reply v resume => exact carried_typeByte hs.1 hs.2 h

def Begun (phase : Phase) (i : Interpreter) : Prop :=
  phase.Executes → phase = .direct ∧ ∃ d, Underway d phase i ∧ d ≤ i.textPos

theorem accept_begins {line : List UInt8} (hs : s.interpreter.memory.Sound l frames)
    (ht : s.interpreter.memory.Typed line) :
    Ends (accept s) (fun phase' s' => Begun phase' s'.interpreter) fun h _ => ∃ e, h = .io e := by
  have hm := hs.layout
  have hroom := ht.room
  have hstart := ht.stagingStart_add
  obtain ⟨hzero, hrun⟩ | ⟨e, -, hrun⟩ | ⟨-, m, journal, -, hrun, -⟩ := accept_cases hs ht
  · refine Ends.of_ok hrun fun hx =>
      ⟨rfl, s.interpreter.memory.stagingStart line, ⟨hx, rfl, ?_, trivial⟩,
        Memory.stagingStart_le_bodyStart _ line⟩
    show s.interpreter.memory.entryStart < s.interpreter.memory.stagingStart line
    omega
  · have htaken := (ht.onlyGap_taken hm).layout hm
    rw [hrun]
    refine (concludes_report e (s.taken line) htaken).mono (fun phase' s' h hx => ?_) fun _ _ hh =>
      hh.2
    obtain ⟨-, rfl, -⟩ | ⟨-, rfl, -⟩ := h
    · exact absurd hx id
    · exact absurd hx id
  · exact Ends.of_ok hrun fun hx => absurd hx id

theorem submit_begins (bytes : List UInt8) (hs : s.interpreter.memory.Sound l frames) :
    Ends (submit bytes s) (fun phase' s' => Begun phase' s'.interpreter) fun h _ =>
    ∃ e, h = .io e := by
  have hgap := Memory.onlyGap_placed bytes hs.layout
  rw [submit_eq bytes hs.layout]
  exact accept_begins (hs.onlyGap hgap) (Memory.typed_placed bytes hs.layout)

/-- Where no line is executed the next step executes none, unless it takes one. -/
theorem step_begins {phase : Phase} (hs : s.interpreter.Ready l frames phase)
    (hx : ¬ phase.Executes) :
    Ends (step phase s) (fun phase' s' => Begun phase' s'.interpreter) fun _ _ => True := by
  have hquiet {act : Act σ Phase} (h : LeadsInto (¬ ·.Executes) act) :
      Ends (act s) (fun phase' s' => Begun phase' s'.interpreter) fun _ _ => True :=
    (h s).mono (fun _ _ hn hx => absurd hx hn) fun _ _ h => h
  cases phase with
  | direct | line | poll | execute | proceed | nextLine => exact absurd trivial hx
  | cold =>
    exact hquiet (.bind fun _ => .bind fun _ => .bind fun _ => leadsInto_pure id :
    LeadsInto _ greet)
  | restart => exact hquiet (.bind fun _ => .bind fun _ => leadsInto_pure id : LeadsInto _ restart)
  | prompt => exact hquiet (.bind fun _ => leadsInto_pure id)
  | bye => exact hquiet (leadsInto_pure id)
  | ask purpose =>
    cases purpose with
    | command =>
      exact hquiet (.bind fun _ => .bind fun _ => leadsInto_pure id : LeadsInto _ (ask .command))
    | reply => exact absurd trivial hx
  | edit purpose pos =>
    cases purpose with
    | reply => exact absurd trivial hx
    | command =>
      obtain ⟨hasking, hp⟩ := hs
      have hm := hasking.sane.layout
      have htakes : Takes (· = s.interpreter) Begun (fun _ => True)
          (typeByte .command pos : Act σ Phase) := by
        refine takes_typeByte_of hm hp (fun _ _ _ _ _ hx => absurd hx id) (fun _ _ => trivial)
          fun t ht => ?_
        have hmarked : t.interpreter.Asking l frames .command := ht ▸ hasking.typed hp Byte.marker
        have htyped : t.interpreter.memory.Typed (Cursor.rest
            ⟨t.interpreter.memory.ram, t.interpreter.memory.entryStart⟩) := ht ▸ hp.typed_marker hm
        exact (accept_begins hmarked.sane.toSound htyped).mono (fun _ _ h => h) fun _ _ hh =>
          ⟨hh, trivial⟩
      exact (htakes s rfl).mono (fun _ _ h => h) fun _ _ _ => trivial

end Session

namespace Moment
variable {σ : Type}

def Executes : Moment σ → Prop
  | idle _ => False
  | busy _ phase _ => phase.Executes

def Begins (d : Nat) : Moment σ → Prop
  | busy _ .direct s => s.interpreter.directText = some d
  | _ => False

def Underway (d : Nat) : Moment σ → Prop
  | idle _ => False
  | busy _ phase s => s.interpreter.Underway d phase

def StaysAbove (d : Nat) : Moment σ → Prop
  | idle _ => True
  | busy _ phase s => s.interpreter.StaysAbove d phase

end Moment

open Interpreter (Spares Continues)

variable {σ : Type} {d : Nat} {l : Listing} {frames : List Frame} {M M' T : Moment σ}
  {past : List (Moment σ)}

/-- The direct line that begins at `d` began to be executed at `T`, and at these moments since then
it has been spared; no other has begun. -/
structure LineSince (d : Nat) (T : Moment σ) (since : List (Moment σ)) : Prop where
  begins : T.Begins d
  none_begins : ∀ N ∈ since, ∀ e, ¬ N.Begins e
  spares : ∀ N ∈ since, Spares d T.session.interpreter N.session.interpreter

theorem LineSince.spares_head {since before : List (Moment σ)} (h : LineSince d T since)
    (he : M :: past = since ++ T :: before) :
    Spares d T.session.interpreter M.session.interpreter := by
  cases since with
  | nil =>
    cases he
    exact .refl d _
  | cons N rest =>
    cases he
    exact h.spares _ List.mem_cons_self

variable [Host σ]

/-- While a direct line is executed the next moment spares it, unless the next one begins. -/
theorem Next.underway (hn : Next M M') (hM : M.Ready l frames) (hx : M'.Executes) :
    (∃ d, M'.Begins d ∧ M'.Underway d ∧ M'.StaysAbove d) ∨
      M.Executes ∧ ∀ d, M.Underway d → (∀ e, ¬ M'.Begins e) ∧ M'.Underway d ∧
        Spares d M.session.interpreter M'.session.interpreter ∧
        (Continues frames d → M.StaysAbove d → M'.StaysAbove d) := by
  have hbegins {call : Call} {phase : Phase} {s : Session σ}
    (hb : Session.Begun phase s.interpreter)
      (hx : phase.Executes) : ∃ d, (Moment.busy call phase s).Begins d ∧
      (Moment.busy call phase s).Underway d ∧
        (Moment.busy call phase s).StaysAbove d := by
    obtain ⟨rfl, d, hu, hle⟩ := hb hx
    exact ⟨d, hu.directText_eq, hu, fun _ => hle⟩
  cases hn with
  | host | serve | refuse | stop | rest => exact absurd hx id
  | @enter s s' line phase hrun =>
    have hends := Session.submit_begins line (Memory.Sane.toSound hM)
    rw [hrun] at hends
    exact Or.inl (hbegins hends hx)
  | @step s s' call phase phase' _ hrun =>
    by_cases hp : phase.Executes
    · refine Or.inr ⟨hp, fun d hu => ?_⟩
      have hends := Session.carried_step hM hu
      rw [hrun] at hends
      obtain ⟨hne, hu', hspares, habove⟩ := hends hx
      refine ⟨fun e hb => ?_, hu', hspares, habove⟩
      cases phase' with
      | direct => exact hne rfl
      | _ => exact hb
    · have hends := Session.step_begins hM hp
      rw [hrun] at hends
      exact Or.inl (hbegins hends hx)

/-- The frames that there are after a step in a direct line continue above `d` as those before it
did. -/
theorem Next.continues (hn : Next M M') (hM : M.Ready l frames) (hc : Continues frames d)
    (ha : M.StaysAbove d) :
    Continues M'.frames d := by
  obtain ⟨l', frames', hready', hfollows, -⟩ := hn.ready hM
  rw [hready'.frames_eq]
  obtain rfl | ⟨-, hsub | ⟨frame, ⟨call, s, rfl, k, m, hread, hline, hpos, -⟩, rfl⟩⟩ :=
    hfollows.kept
  · exact fun _ hm => absurd hm List.not_mem_nil
  · exact fun frame hm => hc frame (hsub.subset hm)
  · -- The frame that was pushed continues where the statement had been read to.
    intro f hm hl
    rcases List.mem_cons.1 hm with rfl | hm
    · rw [hline, hread.currentLine_eq] at hl
      have hfloor : d ≤ s.interpreter.textPos := ha hl
      have hle := hread.le
      omega
    · exact hc f hm hl

/-- Whatever is being executed goes back to a direct line. If no frame continued below the line when
it began, none does. -/
theorem History.lineSince {settings : Settings} {host : σ} {threshold : Option Severity}
    (h : History (Session.start settings host threshold) past M) (hx : M.Executes) :
    ∃ d since T before, M :: past = since ++ T :: before ∧ LineSince d T since ∧ M.Underway d ∧
      (Continues T.frames d → Continues M.frames d ∧ M.StaysAbove d) := by
  induction h with
  | start => exact absurd hx id
  | @next past M M' h hn ih =>
    obtain ⟨l, frames, hready⟩ := h.exists_ready
    -- Either a direct line begins with this moment, or the line that began before is carried on.
    obtain ⟨d, hb, hu, ha⟩ | ⟨hM, hcarried⟩ := hn.underway hready hx
    · exact ⟨d, [], M', M :: past, rfl, ⟨hb, List.forall_mem_nil _, List.forall_mem_nil _⟩, hu,
        fun hc => ⟨hc, ha⟩⟩
    · obtain ⟨d, since, T, before, he, hline, hu, habove⟩ := ih hM
      obtain ⟨hnone, hu', hspares, ha⟩ := hcarried d hu
      have hframes := hready.frames_eq
      have hsince := hline.spares_head he
      refine ⟨d, M' :: since, T, before, by rw [he]; rfl,
        ⟨hline.begins, fun N hN => ?_, fun N hN => ?_⟩, hu', fun hc => ?_⟩
      · rcases List.mem_cons.1 hN with rfl | hN
        · exact hnone
        · exact hline.none_begins N hN
      · rcases List.mem_cons.1 hN with rfl | hN
        · exact hsince.trans hspares
        · exact hline.spares N hN
      · obtain ⟨hcontinues, hstays⟩ := habove hc
        rw [hframes] at hcontinues
        exact ⟨hn.continues hready hcontinues hstays, ha hcontinues hstays⟩

end LineBasic
