import LineBasic.Proofs.Expr.Draws
import LineBasic.Proofs.Session.Editing
import LineBasic.Proofs.Session.Storing
import Mathlib.Algebra.GroupWithZero.Nat

namespace LineBasic
variable {σ τ ι : Type}

open Editor (edit)

namespace Memory
variable {m : Memory} {line : List UInt8} {last : Nat}

theorem Typed.onlyEntry_folded (ht : m.Typed line) (hm : m.Layout)
    (hl : m.entryStart + line.length ≤ last) :
    m.OnlyEntry last (m.folded line) := by
  have hfits := ht.le_size hm
  have hlength : m.entryStart + (Case.fold line).length ≤ m.ram.size := by
    rw [Case.length_fold]
    omega
  refine ⟨rfl, size_overwrite _ _ _, fun k hk => ?_⟩
  show (overwrite _ _ _)[k]? = _
  rw [getElem?_overwrite _ _ _ _ hlength, Case.length_fold, if_neg (by omega)]

end Memory

namespace Interpreter
variable {i j k : Interpreter} {v : Variable} {resume : Nat}

/-- Nothing has changed but the bytes where lines are typed, the generator and the place where text
is read. -/
structure Untouched (i j : Interpreter) : Prop where
  currentLine_eq : j.currentLine = i.currentLine
  directText_eq : j.directText = i.directText
  echo_eq : j.echo = i.echo
  onlyEntry : i.memory.OnlyEntry (i.memory.entryStart + i.room) j.memory

theorem Untouched.refl (i : Interpreter) : i.Untouched i :=
  ⟨rfl, rfl, rfl, .refl _ _⟩

theorem Untouched.room_eq (h : i.Untouched j) : j.room = i.room := by
  have hregisters := h.onlyEntry.registers_eq
  unfold room entryEnd
  rw [h.directText_eq, hregisters]
  rfl

theorem Untouched.trans (h : i.Untouched j) (h' : j.Untouched k) : i.Untouched k := by
  have honly := h'.onlyEntry
  rw [h.onlyEntry.entryStart_eq, h.room_eq] at honly
  exact ⟨h'.currentLine_eq.trans h.currentLine_eq, h'.directText_eq.trans h.directText_eq,
    h'.echo_eq.trans h.echo_eq,
    h.onlyEntry.trans honly⟩

section
variable (hm : i.memory.Layout)
include hm

theorem Untouched.onlyGap (h : i.Untouched j) : i.memory.OnlyGap j.memory := by
  have hlt := (typing_room hm).lt
  exact h.onlyEntry.onlyGap (by omega)

theorem Untouched.value_eq (h : i.Untouched j) (w : Variable) :
    j.memory.value w = i.memory.value w :=
  (h.onlyGap hm).value_eq hm

/-- The line that a reply is typed as stands in the buffer. -/
theorem untouched_keyed (keys : List UInt8) :
    i.Untouched (i.withMemory (i.memory.keyed i.room keys)) :=
  ⟨rfl, rfl, rfl, Memory.onlyEntry_keyed hm (typing_room hm) keys⟩

end

/-- What a typed reply is worth, and the generator after its draws. -/
def reply (i : Interpreter) (strokes : Keystrokes) : Except Diagnostic Int16 × Generator :=
  (i.withMemory (i.memory.keyed i.room strokes.keys)).worth (edit i.room [] strokes.keys)

def replied (i : Interpreter) (strokes : Keystrokes) : Interpreter :=
  (i.withMemory (i.memory.keyed i.room strokes.keys)).tried (edit i.room [] strokes.keys)

def replyDraws (i : Interpreter) (strokes : Keystrokes) : List Int16 :=
  (Expr.readRelation (Case.fold (edit i.room [] strokes.keys))).expr.draws
    (i.replied strokes).memory.view
    { generator := i.generator }

def exchange (i : Interpreter) (strokes : Keystrokes) : List UInt8 :=
  byte '?' :: Editor.echoed i.echo i.room strokes.keys

/-- All of these replies are rejected, one after the other. They draw these numbers, and leave this
interpreter. -/
inductive Rejects : Interpreter → List Keystrokes → List Int16 → Interpreter → Prop
  | none (i : Interpreter) : Rejects i [] [] i
  | more {i j : Interpreter} {strokes : Keystrokes} {replies : List Keystrokes} {draws : List Int16}
    {why : Diagnostic}
      (h : (i.reply strokes).1 = .error why) (hr : Rejects (i.replied strokes) replies draws j) :
      Rejects i (strokes :: replies) (i.replyDraws strokes ++ draws) j

/-- A reply is asked for or typed, and nothing has changed but what its replies are typed over and
draw from. -/
def AwaitsReply (i : Interpreter) (v : Variable) (resume : Nat) (phase : Phase) (j : Interpreter) :
    Prop :=
  (phase = .ask (.reply v resume) ∨ ∃ pos, phase = .edit (.reply v resume) pos) ∧ i.Untouched j

theorem generator_replied (i : Interpreter) (strokes : Keystrokes) :
    (i.replied strokes).generator = (i.replyDraws strokes).foldl .afterDraw i.generator :=
  Expr.generator_evaluate _ _ _

theorem Untouched.exchange_eq (h : i.Untouched j) : j.exchange = i.exchange := by
  funext strokes
  rw [exchange, exchange, h.room_eq, h.echo_eq]

theorem untouched_replied (hm : i.memory.Layout) (strokes : Keystrokes) :
    i.Untouched (i.replied strokes) := by
  have hkeyed := untouched_keyed hm strokes.keys
  have htyped := Memory.typed_keyed hm (typing_room hm) strokes.keys
  have hlength : (edit i.room [] strokes.keys).length ≤ i.room :=
    Editor.length_edit_le (Nat.zero_le _) strokes.keys
  have hstart : (i.memory.keyed i.room strokes.keys).entryStart = i.memory.entryStart :=
    hkeyed.onlyEntry.entryStart_eq
  have hfolded := htyped.onlyEntry_folded ((hkeyed.onlyGap hm).layout hm)
    (show _ ≤ i.memory.entryStart + i.room by rw [hstart]; omega)
  exact hkeyed.trans ⟨rfl, rfl, rfl, by rwa [hkeyed.room_eq, hkeyed.onlyEntry.entryStart_eq]⟩

theorem layout_replied (hm : i.memory.Layout) (strokes : Keystrokes) :
    (i.replied strokes).memory.Layout :=
  ((untouched_replied hm strokes).onlyGap hm).layout hm

theorem Rejects.untouched {replies : List Keystrokes} {draws : List Int16}
    (h : Rejects i replies draws j) (hm : i.memory.Layout) : i.Untouched j := by
  induction h with
  | none i => exact .refl i
  | more _ _ ih => exact (untouched_replied hm _).trans (ih (layout_replied hm _))

theorem Rejects.generator_eq {replies : List Keystrokes} {draws : List Int16}
    (h : Rejects i replies draws j) :
    j.generator = draws.foldl .afterDraw i.generator := by
  induction h with
  | none i => rfl
  | more _ _ ih => rw [ih, List.foldl_append, generator_replied]

theorem Enters.awaitsReply {phase : Phase} (h : i.Enters (.reply v resume) phase j) :
    i.AwaitsReply v resume phase j := by
  obtain ⟨hphase, m, honly, rfl⟩ := h
  exact ⟨hphase, rfl, rfl, rfl, honly⟩

theorem AwaitsReply.of_untouched {phase : Phase} (hu : i.Untouched j)
    (h : j.AwaitsReply v resume phase k) :
    i.AwaitsReply v resume phase k :=
  ⟨h.1, hu.trans h.2⟩

end Interpreter

/-- How many steps a reply takes. -/
def Keystrokes.steps (strokes : Keystrokes) : Nat :=
  strokes.keys.length + 2

namespace Session
variable [Host σ] {input : σ → ι} {after : ι} {v : Variable} {resume : Nat} {strokes : Keystrokes}
  {s : Session (Recorded σ)}

section
variable (hi : Deaf input) (hm : s.interpreter.memory.Layout)
include hi hm

theorem runs_reply (hk : Supplies input after strokes.bytes s.host.host) {phase : Phase}
    {j : Interpreter}
    (htake : ∀ (host : Recorded σ) journal, ∃ journal',
      takeReply v resume (Session.mk (s.interpreter.withMemory
        (s.interpreter.memory.keyed s.interpreter.room strokes.keys)) host journal) =
          .ok phase ⟨j, host, journal'⟩) :
    ∃ host journal, input host = after ∧
      Runs (fun phase t => s.interpreter.AwaitsReply v resume phase t.interpreter) strokes.steps
        (.ask (.reply v resume)) s phase
          ⟨j, ⟨host, s.host.written ++ s.interpreter.exchange strokes⟩, journal⟩ := by
  obtain ⟨pos, t, host, hhost, hrun, henters, hend⟩ :=
    runs_asked hi after (.reply v resume) strokes hm hk
  obtain ⟨journal, htaken⟩ := htake ⟨host, _⟩ s.journal
  have hstep : step (.edit (.reply v resume) pos) t = _ := hend.trans htaken
  have hlast : Runs (fun phase t => s.interpreter.AwaitsReply v resume phase t.interpreter)
      (0 + 1) _ t _ _ :=
    .step henters.awaitsReply hstep (.none _ _)
  have hfirst := hrun.mono fun _ _ h => h.awaitsReply
  have hall := hfirst.trans hlast
  rw [show 0 + 1 + (strokes.keys.length + 1) =
    strokes.steps by unfold Keystrokes.steps; omega] at hall
  exact ⟨host, journal, hhost, hall⟩

theorem runs_rejected (v : Variable) (resume : Nat)
    (hk : Supplies input after strokes.bytes s.host.host) {why : Diagnostic}
    (hw : (s.interpreter.reply strokes).1 = .error why) : ∃ host journal, input host = after ∧
      Runs (fun phase t => s.interpreter.AwaitsReply v resume phase t.interpreter) strokes.steps
        (.ask (.reply v resume)) s (.ask (.reply v resume))
        ⟨s.interpreter.replied strokes, ⟨host, s.host.written ++ s.interpreter.exchange strokes⟩,
          journal⟩ := by
  refine runs_reply hi hm hk fun host journal => ?_
  have htyped := Memory.typed_keyed hm (Interpreter.typing_room hm) strokes.keys
  have hlayout := ((Interpreter.untouched_keyed hm strokes.keys).onlyGap hm).layout hm
  exact takeReply_rejected (s := ⟨_, host, journal⟩) hlayout htyped v resume hw

theorem runs_accepted (v : Variable) (resume : Nat)
    (hk : Supplies input after strokes.bytes s.host.host) {x : Int16}
    (hw : (s.interpreter.reply strokes).1 = .ok x) : ∃ host journal, input host = after ∧
      Runs (fun phase t => s.interpreter.AwaitsReply v resume phase t.interpreter) strokes.steps
        (.ask (.reply v resume)) s .proceed
        ⟨{ s.interpreter.replied strokes with
            memory := (s.interpreter.replied strokes).memory.stored v x, textPos := resume },
          ⟨host, s.host.written ++ s.interpreter.exchange strokes⟩, journal⟩ := by
  refine runs_reply hi hm hk fun host journal => ?_
  have htyped := Memory.typed_keyed hm (Interpreter.typing_room hm) strokes.keys
  have hlayout := ((Interpreter.untouched_keyed hm strokes.keys).onlyGap hm).layout hm
  exact takeReply_stored (s := ⟨_, host, journal⟩) hlayout htyped v resume hw

end

theorem runs_rejects (hi : Deaf input) (v : Variable) (resume : Nat) {i j : Interpreter}
    (hm : i.memory.Layout) {replies : List Keystrokes} {draws : List Int16}
    (hr : i.Rejects replies draws j) (hs : s.interpreter = i)
    (hk : Supplies input after (replies.flatMap Keystrokes.bytes) s.host.host) :
    ∃ host journal, input host = after ∧
      Runs (fun phase t => i.AwaitsReply v resume phase t.interpreter)
        (replies.map Keystrokes.steps).sum
        (.ask (.reply v resume)) s (.ask (.reply v resume))
        ⟨j, ⟨host, s.host.written ++ replies.flatMap i.exchange⟩, journal⟩ := by
  induction hr generalizing s with
  | none i =>
    refine ⟨s.host.host, s.journal, hk, ?_⟩
    rw [List.flatMap_nil, List.append_nil, ← hs]
    exact .none _ s
  | @more i j strokes replies draws why hw hr ih =>
    subst hs
    rw [List.flatMap_cons] at hk
    obtain ⟨mid, hfirst, hrest⟩ := hi.supplies_append strokes.bytes _ hk
    obtain ⟨host, journal, hhost, hrun⟩ := runs_rejected hi hm v resume hfirst hw
    -- The later replies are typed in the same room and echoed alike.
    have hreplied := Interpreter.untouched_replied hm strokes
    obtain ⟨done, journal', hdone, hruns⟩ := ih (Interpreter.layout_replied hm strokes)
      (s := ⟨_, ⟨host, s.host.written ++ s.interpreter.exchange strokes⟩, journal⟩) rfl
        (hrest host hhost)
    have hall := hrun.trans (hruns.mono fun _ _ h => h.of_untouched hreplied)
    rw [hreplied.exchange_eq, List.append_assoc, Nat.add_comm] at hall
    exact ⟨done, journal', hdone, hall⟩

end Session

/-- What an `INPUT` leaves that has been answered: its variable has the value, the session goes on
behind it, and nothing else has changed but the gap below the direct line and the generator, which
has made these draws. -/
structure Interpreter.Obtains (i : Interpreter) (v : Variable) (x : Int16) (resume : Nat)
    (draws : List Int16) (j : Interpreter) : Prop where
  value_eq : j.memory.value v = x
  others_eq : ∀ w, w ≠ v → j.memory.value w = i.memory.value w
  regions : i.memory.SameRegions j.memory
  stackTop_eq : j.memory.stackTop = i.memory.stackTop
  records : Memory.Agree i.memory.ram j.memory.ram 0 i.memory.programEnd
  frames : Memory.Agree i.memory.ram j.memory.ram i.memory.stackTop i.memory.size
  direct : ∀ d, i.directText = some d → Memory.Agree i.memory.ram j.memory.ram d
    i.memory.variablesBegin
  directText_eq : j.directText = i.directText
  currentLine_eq : j.currentLine = i.currentLine
  textPos_eq : j.textPos = resume
  generator_eq : j.generator = draws.foldl .afterDraw i.generator

namespace Interpreter
variable {i j : Interpreter} {v : Variable} {resume : Nat}

theorem Untouched.obtains (hm : i.memory.Layout) (h : i.Untouched j)
    (hd : ∀ d, i.directText = some d → i.memory.entryStart < d) (v : Variable) (x : Int16)
    (resume : Nat) {draws : List Int16} (hg : j.generator = draws.foldl .afterDraw i.generator) :
    i.Obtains v x resume draws { j with memory := j.memory.stored v x, textPos := resume } := by
  have hgap := h.onlyGap hm
  have hlayout := hgap.layout hm
  have hvariables := hgap.variablesBegin_eq
  have hfits := Memory.store_fits (m := j.memory) v x
  have hsize := hlayout.variables_le_size
  have hadd := hlayout.variables_add
  have hlimit := hlayout.limit_le
  have hreserve := hlayout.reserve
  have hbelow : Memory.Agree j.memory.ram (j.memory.stored v x).ram 0 j.memory.variablesBegin :=
    Memory.agree_overwrite_below (by show _ ≤ j.memory.size; omega) (Nat.le_add_right _ _)
  have habove : Memory.Agree j.memory.ram (j.memory.stored v x).ram j.memory.stackTop
      j.memory.size :=
    Memory.agree_overwrite_above (by show _ ≤ j.memory.size; omega) (by omega)
  refine ⟨Memory.value_stored hlayout v x, fun w hw => ?_, ?_, hgap.stackTop_eq, ?_, ?_,
    fun d hdirect => ?_,
    h.directText_eq, h.currentLine_eq, rfl, hg⟩
  · exact (Memory.value_stored_of_ne hlayout hw).trans (h.value_eq hm w)
  · exact hgap.toSameRegions.trans (Memory.sameRegions_stored v x)
  · refine hgap.below.trans (hbelow.mono (Nat.le_refl _) ?_)
    rw [← hgap.programEnd_eq]
    omega
  · refine (hgap.above.mono ?_ (Nat.le_refl _)).trans ?_
    · rw [← hgap.stackTop_eq, ← hvariables]
      omega
    · rwa [← hgap.stackTop_eq, ← hgap.size_eq]
  · -- The direct line begins above the last place that a reply may take.
    have hlt := hd d hdirect
    have hroom : i.memory.entryStart + i.room < d := by
      unfold room entryEnd
      rw [hdirect]
      dsimp only
      omega
    have hentry : Memory.Agree i.memory.ram j.memory.ram d i.memory.variablesBegin :=
      fun k hk _ => h.onlyEntry.agree k (Or.inr (Nat.lt_of_lt_of_le hroom hk))
    exact hentry.trans (hvariables ▸ hbelow.mono (Nat.zero_le _) (Nat.le_refl _))

end Interpreter

namespace Session
variable [Host σ] {input : σ → ι} {after : ι} {v : Variable} {resume : Nat}
  {s : Session (Recorded σ)}

/-- After any number of replies that are rejected, the first that can be evaluated is stored. -/
theorem runs_replies (hi : Deaf input) (v : Variable) (resume : Nat)
    (hm : s.interpreter.memory.Layout)
    (hd : ∀ d, s.interpreter.directText = some d → s.interpreter.memory.entryStart < d)
    {replies : List Keystrokes} {draws : List Int16} {j : Interpreter}
    (hr : s.interpreter.Rejects replies draws j) {answer : Keystrokes} {x : Int16}
    (hw : (j.reply answer).1 = .ok x)
    (hk : Supplies input after ((replies ++ [answer]).flatMap Keystrokes.bytes) s.host.host) :
    ∃ t, input t.host.host = after ∧
      Runs (fun phase t => s.interpreter.AwaitsReply v resume phase t.interpreter)
        ((replies ++ [answer]).map Keystrokes.steps).sum (.ask (.reply v resume)) s .proceed t ∧
      t.host.written = s.host.written ++ (replies ++ [answer]).flatMap s.interpreter.exchange ∧
      s.interpreter.Obtains v x resume (draws ++ j.replyDraws answer) t.interpreter := by
  -- Rejected replies have left the entry and the generator changed, and nothing else that the last
  -- one depends on.
  have hrejected := hr.untouched hm
  have hlayout := (hrejected.onlyGap hm).layout hm
  rw [List.flatMap_append, List.flatMap_singleton] at hk
  obtain ⟨mid, hfirst, hrest⟩ := hi.supplies_append _ answer.bytes hk
  obtain ⟨host, journal, hhost, hruns⟩ := runs_rejects hi v resume hm hr rfl hfirst
  obtain ⟨done, journal', hdone, hrun⟩ := runs_accepted
    (s := ⟨j, ⟨host, s.host.written ++ replies.flatMap s.interpreter.exchange⟩, journal⟩) hi
      hlayout v resume
    (hrest host hhost) hw
  have hall := hruns.trans (hrun.mono fun _ _ h => h.of_untouched hrejected)
  refine ⟨⟨{ j.replied answer with memory := (j.replied answer).memory.stored v x, textPos :=
    resume },
    ⟨done, s.host.written ++ replies.flatMap s.interpreter.exchange ++ j.exchange answer⟩,
      journal'⟩, hdone, ?_, ?_, ?_⟩
  · rw [List.map_append, List.sum_append, List.map_singleton, List.sum_singleton, Nat.add_comm]
    exact hall
  · rw [List.flatMap_append, List.flatMap_singleton, ← hrejected.exchange_eq, List.append_assoc]
  · have hgenerator : (j.replied answer).generator = (draws ++ j.replyDraws answer).foldl .afterDraw
        s.interpreter.generator := by
      rw [List.foldl_append, ← hr.generator_eq, Interpreter.generator_replied]
    exact (hrejected.trans (Interpreter.untouched_replied hlayout answer)).obtains hm hd v x
      resume hgenerator

theorem execute_input {τ : Type} [Host τ] {s : Session τ}
    (h : s.interpreter.inputs? = some (v, resume)) :
    ∃ journal, execute s = .ok (.ask (.reply v resume))
      ⟨{ s.interpreter with textPos := resume }, s.host, journal⟩ := by
  unfold Interpreter.inputs? at h
  split at h
  case h_2 => cases h
  case h_1 c htoken =>
    split at h
    case h_2 => cases h
    case h_1 w d hnamed =>
      cases h
      obtain ⟨hletter, hend, rfl⟩ := variable_of_named hnamed
      have hcursor : ((s.movedTo c.pos).noted (.statement (some .input) c.pos)).interpreter.cursor =
          c :=
        cursor_movedTo (token_within_of_eq htoken)
      have hinput : input ((s.movedTo c.pos).noted (.statement (some .input) c.pos)) =
          .ok (.ask (.reply v c.skipBlanks.advance.skipBlanks.pos))
            (((s.movedTo c.pos).noted (.statement (some .input) c.pos)).movedTo
              c.skipBlanks.advance.skipBlanks.pos) := by
        unfold input
        refine (bind_variable (by rw [hcursor]; exact hletter) (by rw [hcursor]; exact hend)).trans
          ?_
        rw [hcursor]
        rfl
      have hstatement : statement s = .ok (.ask (.reply v c.skipBlanks.advance.skipBlanks.pos))
          (((s.movedTo c.pos).noted (.statement (some .input) c.pos)).movedTo
            c.skipBlanks.advance.skipBlanks.pos) := by
        unfold statement
        rw [bind_of_ok (cursor_eq s), htoken]
        exact (bind_of_ok (goTo_eq c s)).trans hinput
      exact ⟨_, bind_of_ok (attempt_of_ok hstatement)⟩

end Session

/-- The first reply to an `INPUT` that can be evaluated is stored, after all that cannot. -/
theorem History.input_obtains [Host σ] [Host τ] {settings : Settings} {first : σ}
    {threshold : Option Severity} {past : List (Moment σ)} {call : Call} {s : Session σ}
    (h : History (Session.start settings first threshold) past (.busy call .execute s))
    {v : Variable} {resume : Nat} (hv : s.interpreter.inputs? = some (v, resume)) {input : τ → ι}
    (hi : Deaf input) {replies : List Keystrokes} {draws : List Int16} {j : Interpreter}
    (hr : Interpreter.Rejects { s.interpreter with textPos := resume } replies draws j)
    {answer : Keystrokes} {x : Int16} (hw : (j.reply answer).1 = .ok x) {after : ι} {typist : τ}
    (hk : Supplies input after ((replies ++ [answer]).flatMap Keystrokes.bytes) typist) :
    ∃ t : Session (Recorded τ), input t.host.host = after ∧
      Session.Runs (fun phase t => (phase = .execute ∨ phase = .ask (.reply v resume) ∨
          ∃ pos, phase = .edit (.reply v resume) pos) ∧
          ∀ w, t.interpreter.memory.value w = s.interpreter.memory.value w)
        (((replies ++ [answer]).map Keystrokes.steps).sum + 1) .execute
          (s.on (Recorded.mk typist [])) .proceed t ∧
      t.host.written = (replies ++ [answer]).flatMap s.interpreter.exchange ∧
      s.interpreter.Obtains v x resume (draws ++ j.replyDraws answer) t.interpreter := by
  obtain ⟨l, frames, hready⟩ := h.exists_ready
  have hm : s.interpreter.memory.Layout := hready.sane.layout
  -- A pending direct line stands above the start of the entry, and it bounds what is typed there.
  obtain ⟨d, -, -, -, -, -, hu, -⟩ := h.lineSince trivial
  have hd : ∀ e, s.interpreter.directText = some e → s.interpreter.memory.entryStart < e := by
    intro e he
    have hdirect : s.interpreter.directText = some d := hu.directText_eq
    cases hdirect.symm.trans he
    exact hu.lt
  obtain ⟨journal, hask⟩ := Session.execute_input (s := s.on (Recorded.mk typist [])) hv
  obtain ⟨t, hafter, hruns, hwritten, hobtains⟩ := Session.runs_replies
    (s := ⟨{ s.interpreter with textPos := resume }, Recorded.mk typist [], journal⟩) hi v resume
      hm hd hr hw hk
  refine ⟨t, hafter, .step ⟨Or.inl rfl, fun w => rfl⟩ hask (hruns.mono ?_), hwritten, ?_⟩
  · intro phase t ht
    exact ⟨Or.inr ht.1, Interpreter.Untouched.value_eq (i :=
      { s.interpreter with textPos := resume }) hm ht.2⟩
  · obtain ⟨hvalue, hothers, hregions, htop, hrecords, hframes, hdirect, hdirectText, hcurrent,
        htext, hgenerator⟩ := hobtains
    exact ⟨hvalue, hothers, hregions, htop, hrecords, hframes, hdirect, hdirectText, hcurrent,
      htext, hgenerator⟩

/-- A division by zero is asked for again, after its draw, and then a number is stored. -/
theorem History.input_obtains_seven :
    ∃ s : Session Script, s.interpreter.inputs? = some (⟨0⟩, 921) ∧
    ∃ t : Session (Recorded Script), Script.input t.host.host = [] ∧
      Session.Runs (fun phase t => (phase = .execute ∨ phase = .ask (.reply ⟨0⟩ 921) ∨
          ∃ pos, phase = .edit (.reply ⟨0⟩ 921) pos) ∧
          ∀ w, t.interpreter.memory.value w = s.interpreter.memory.value w)
        14 .execute (s.on (Recorded.mk { input := ascii "rnd(9)/0\r7\r" } [])) .proceed t ∧
      t.host.written = ascii "?rnd(9)/0\n?7\n" ∧ s.interpreter.Obtains ⟨0⟩ 7 921
      [9] t.interpreter := by
  obtain ⟨past, s, s', hexecute, hstep, hinputs, hecho, hroom⟩ := History.exists_input
  obtain ⟨journal, hask⟩ := Session.execute_input hinputs
  cases hask.symm.trans hstep
  let i : Interpreter := { s.interpreter with textPos := 921 }
  let failing : Keystrokes := ⟨ascii "rnd(9)/0", Byte.carriageReturn, by decide, by decide⟩
  let seven : Keystrokes := ⟨ascii "7", Byte.carriageReturn, by decide, by decide⟩
  have hfailing : (Expr.readRelation (Case.fold (edit 252 [] failing.keys))).expr =
      .arith .quotient (.call .rnd (.literal 9)) (.literal 0) := by
    decide +kernel
  have hseven : (Expr.readRelation (Case.fold (edit 252 [] seven.keys))).expr = .literal 7 := by
    decide +kernel
  have hm : i.memory.Layout := (by
    obtain ⟨l, frames, hready⟩ := hexecute.exists_ready
    exact hready.sane.layout)
  have hiroom : i.room = 252 := hroom
  have hw : (i.reply failing).1 = .error .divisionByZero := by
    unfold Interpreter.reply Interpreter.worth
    rw [hiroom, hfailing]
    rfl
  have hdraws : i.replyDraws failing = [9] := by
    unfold Interpreter.replyDraws
    rw [hiroom, hfailing]
    rfl
  have hreplied := Interpreter.untouched_replied hm failing
  have hvalue : ((i.replied failing).reply seven).1 = .ok 7 := by
    unfold Interpreter.reply Interpreter.worth
    rw [hreplied.room_eq, hiroom, hseven]
    rfl
  have hlast : (i.replied failing).replyDraws seven = [] := by
    unfold Interpreter.replyDraws
    rw [hreplied.room_eq, hiroom, hseven]
    rfl
  obtain ⟨t, hafter, hruns, hwritten, hobtains⟩ := hexecute.input_obtains hinputs Script.deaf
    (.more hw (.none (i.replied failing))) hvalue
      (Script.supplies ([failing, seven].flatMap Keystrokes.bytes) [] #[])
  rw [hdraws, hlast] at hobtains
  refine ⟨s, hinputs, t, hafter, hruns, ?_, hobtains⟩
  have hechoed : s.interpreter.echo = true := hecho
  rw [hwritten]
  unfold Interpreter.exchange
  rw [hechoed, show s.interpreter.room = 252 from hroom]
  decide

end LineBasic
