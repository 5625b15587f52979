import LineBasic.Proofs.Session.LoopText
import Mathlib.Logic.Function.Iterate

namespace LineBasic

/-- Neither in the loop nor behind it does the variable leave the range of the numbers. -/
def Unwrapped (initial terminal step : Int16) : Prop :=
  step = 0 ∨ 0 < step ∧ max initial.toInt terminal.toInt + step.toInt ≤ 32767 ∨
    step < 0 ∧ -32768 ≤ min initial.toInt terminal.toInt + step.toInt

instance (initial terminal step : Int16) : Decidable (Unwrapped initial terminal step) :=
  inferInstanceAs (Decidable (_ ∨ _))

/-- How often a loop with these bounds and this step is executed. -/
def passes (initial terminal step : Int16) : Nat :=
  if step = 0 then 1 else (max 1 ((terminal.toInt - initial.toInt).fdiv step.toInt + 1)).toNat

section
variable {initial terminal step : Int16}

theorem passes_pos (initial terminal step : Int16) : 0 < passes initial terminal step := by
  unfold passes
  split <;> omega

/-- The next value is in the bounds of a loop with a positive step if one more pass is due. -/
theorem le_iff_lt_passes (hstep : 0 < step.toInt) (k : Nat) :
    initial.toInt + (k + 1) * step.toInt ≤ terminal.toInt ↔
    k + 1 < passes initial terminal step := by
  have hne : step ≠ 0 := by
    rintro rfl
    exact absurd hstep (by decide)
  have hle := Int.le_ediv_iff_mul_le (a := (k + 1 : Int))
    (b := terminal.toInt - initial.toInt) hstep
  rw [passes, if_neg hne, Int.fdiv_eq_ediv_of_nonneg _ (Int.le_of_lt hstep)]
  omega

theorem ge_iff_lt_passes (hstep : step.toInt < 0) (k : Nat) :
    terminal.toInt ≤ initial.toInt + (k + 1) * step.toInt ↔
    k + 1 < passes initial terminal step := by
  have hne : step ≠ 0 := by
    rintro rfl
    exact absurd hstep (by decide)
  have hle := Int.le_ediv_iff_mul_le (a := (k + 1 : Int)) (b := initial.toInt - terminal.toInt)
    (show 0 < -step.toInt by omega)
  have hneg : (terminal.toInt - initial.toInt).fdiv step.toInt = (initial.toInt - terminal.toInt) /
      -step.toInt := by
    rw [← Int.fdiv_eq_ediv_of_nonneg _ (show 0 ≤ -step.toInt by omega), ← Int.neg_fdiv_neg,
      Int.neg_sub]
  rw [passes, if_neg hne, hneg]
  rw [Int.mul_neg] at hle
  omega

/-- As long as passes are due the variable lies between the bounds, or has its initial value. -/
theorem toInt_le_max {k : Nat} (hstep : 0 < step.toInt) (hk : k < passes initial terminal step) :
    initial.toInt + k * step.toInt ≤ max initial.toInt terminal.toInt := by
  cases k with
  | zero => omega
  | succ k =>
    have hle := (le_iff_lt_passes hstep k).2 hk
    rw [Int.natCast_succ]
    omega

theorem min_le_toInt {k : Nat} (hstep : step.toInt < 0) (hk : k < passes initial terminal step) :
    min initial.toInt terminal.toInt ≤ initial.toInt + k * step.toInt := by
  cases k with
  | zero => omega
  | succ k =>
    have hle := (ge_iff_lt_passes hstep k).2 hk
    rw [Int.natCast_succ]
    omega

/-- What `NEXT` makes of the variable at the end of a pass, and whether it goes back for another
one. -/
theorem step_pass {k : Nat} {x : Int16} (hwrap : Unwrapped initial terminal step)
    (hk : k < passes initial terminal step) (hx : x.toInt = initial.toInt + k * step.toInt) :
    (x + step).toInt = initial.toInt + (k + 1) * step.toInt ∧
      (Session.repeats step (x + step) terminal = true ↔ k + 1 < passes initial terminal step) := by
  have hlow := x.le_toInt
  have hhigh : x.toInt ≤ 32767 := x.toInt_le
  have hsum (hmin : -32768 ≤ x.toInt + step.toInt) (hmax : x.toInt + step.toInt ≤ 32767) :
      (x + step).toInt = initial.toInt + (k + 1) * step.toInt := by
    rw [Int16.toInt_add, Int.bmod_eq_of_le (by omega) (by omega), hx, Int.add_mul, Int.one_mul,
      Int.add_assoc]
  -- By the sign of the step, as the code compares with the bound from one side or the other.
  obtain rfl | ⟨hpos, hbound⟩ | ⟨hneg, hbound⟩ := hwrap
  · have hone : passes initial terminal 0 = 1 := rfl
    have hzero : (0 : Int16).toInt = 0 := rfl
    refine ⟨hsum (by omega) (by omega), ?_⟩
    rw [hone]
    simp [Session.repeats]
  · have hstep : 0 < step.toInt := Int16.lt_iff_toInt_lt.1 hpos
    have hle := toInt_le_max hstep hk
    have hnext := hsum (by omega) (by omega)
    have hnot : ¬ step < 0 := by
      rw [Int16.lt_iff_toInt_lt]
      exact Int.not_lt.2 (Int.le_of_lt hstep)
    refine ⟨hnext, ?_⟩
    rw [← le_iff_lt_passes hstep k, ← hnext, ← Int16.le_iff_toInt_le]
    simp [Session.repeats, hpos, hnot]
  · have hstep : step.toInt < 0 := Int16.lt_iff_toInt_lt.1 hneg
    have hle := min_le_toInt hstep hk
    have hnext := hsum (by omega) (by omega)
    have hnot : ¬ 0 < step := by
      rw [Int16.lt_iff_toInt_lt]
      exact Int.not_lt.2 (Int.le_of_lt hstep)
    refine ⟨hnext, ?_⟩
    rw [← ge_iff_lt_passes hstep k, ← hnext, ← Int16.le_iff_toInt_le]
    simp [Session.repeats, hneg, hnot]

end

section
variable {σ : Type}

/-- Where passes of a loop begin, in a run that starts with the beginning of the loop: at the moment
after that, and again wherever a pass has ended, as `ends` has it, and the `NEXT` has left the frame
on the stack. -/
inductive PassBegins (run : Nat → Moment σ) (ends : Nat → Nat) (frame : Frame) : Nat → Prop
  | first : PassBegins run ends frame 1
  | again {n : Nat} {selection : Selection} : PassBegins run ends frame n →
      (run (ends n)).selection = some selection → (run (ends n + 1)).frames = frame ::
        selection.below →
      PassBegins run ends frame (ends n + 1)

/-- A pass that begins at `n` comes at `e` to a `NEXT` that selects the loop, with the variable as
it was. -/
structure PassEnds (run : Nat → Moment σ) (v : Variable) (frame : Frame) (n e : Nat) : Prop where
  le : n ≤ e
  selects : ∃ below after, (run e).selection = some ⟨frame, below, after⟩
  value_eq : (run e).memory.value v = (run n).memory.value v

/-- With a `NEXT` the loop is left: its frame and all above it have gone, the frames below it stand,
and the session goes on after the `NEXT`. Nothing else has changed but the variable. -/
structure Leaves (v : Variable) (frame : Frame) (M M' : Moment σ) : Prop where
  selects : ∃ after, M.selection = some ⟨frame, M'.frames, after⟩ ∧
    M'.GoesOnAt M.session.interpreter.currentLine after
  value_eq : ∀ w, w ≠ v → M'.memory.value w = M.memory.value w
  lines_eq : M'.memory.lines = M.memory.lines

def passStart (ends : Nat → Nat) : Nat → Nat
  | 0 => 1
  | k + 1 => ends (passStart ends k) + 1

variable [Host σ]

/-- Every moment of a run that goes on from a history has a history. -/
theorem History.along {first : Session σ} {past : List (Moment σ)} {run : Nat → Moment σ}
    (h : History first past (run 0)) (hrun : ∀ n, Next (run n) (run (n + 1))) (n : Nat) :
    ∃ past, History first past (run n) := by
  induction n with
  | zero => exact ⟨past, h⟩
  | succ n ih =>
    obtain ⟨past, hn⟩ := ih
    exact ⟨_, hn.next (hrun n)⟩

section
variable {settings : Settings} {host : σ} {threshold : Option Severity} {past : List (Moment σ)}
  {run : Nat → Moment σ} {ends : Nat → Nat} {v : Variable} {initial terminal step : Int16}
    {line : Option Nat}
  {pos : Nat} (h : History (Session.start settings host threshold) past (run 0))
  (hrun : ∀ n, Next (run n) (run (n + 1))) (hwrap : Unwrapped initial terminal step)
  (hends : ∀ n, PassBegins run ends (.loop v terminal step line pos) n →
    PassEnds run v (.loop v terminal step line pos) n (ends n))
include h hrun hwrap hends

theorem pass_turns {n k : Nat} (hn : PassBegins run ends (.loop v terminal step line pos) n)
    (hk : k < passes initial terminal step)
    (hx : ((run n).memory.value v).toInt = initial.toInt + k * step.toInt) :
    ((run (ends n + 1)).memory.value v).toInt = initial.toInt + (k + 1) * step.toInt ∧
      if k + 1 < passes initial terminal step then
        PassBegins run ends (.loop v terminal step line pos) (ends n + 1) ∧
        (run (ends n + 1)).GoesOnAt line pos
      else Leaves v (.loop v terminal step line pos) (run (ends n)) (run (ends n + 1)) := by
  obtain ⟨-, ⟨below, after, hselection⟩, hvalue⟩ := hends n hn
  obtain ⟨past', hpast⟩ := h.along hrun (ends n)
  obtain ⟨l, frames, hready⟩ := hpast.exists_ready
  obtain ⟨hstep, hothers, hlines, hturn⟩ := (hrun (ends n)).of_selection hready hselection
  rw [hvalue] at hstep hturn
  obtain ⟨hnext, hrepeats⟩ := step_pass hwrap hk hx
  rw [← hstep] at hnext
  refine ⟨hnext, ?_⟩
  by_cases hmore : k + 1 < passes initial terminal step
  · rw [if_pos (hrepeats.2 hmore)] at hturn
    rw [if_pos hmore]
    exact ⟨.again hn hselection hturn.1, hturn.2⟩
  · rw [if_neg fun hr => hmore (hrepeats.1 hr)] at hturn
    rw [if_neg hmore]
    exact ⟨⟨after, hturn.1 ▸ hselection, hturn.2⟩, hothers, hlines⟩

variable (hbegun : (run 1).GoesOnAt line pos) (hinitial : (run 1).memory.value v = initial)
include hbegun hinitial

/-- One pass after the other begins as long as any is due, and each with the next value. -/
theorem pass_begins {k : Nat} (hk : k < passes initial terminal step) :
    PassBegins run ends (.loop v terminal step line pos) (passStart ends k) ∧
      (run (passStart ends k)).GoesOnAt line pos ∧
      ((run (passStart ends k)).memory.value v).toInt = initial.toInt + k * step.toInt := by
  -- On the passes before. The sum that the `NEXT` between two passes takes does not wrap, so it is
  -- the next value.
  induction k with
  | zero =>
    refine ⟨.first, hbegun, ?_⟩
    show ((run 1).memory.value v).toInt = _
    rw [hinitial]
    simp
  | succ k ih =>
    obtain ⟨hbegins, -, hx⟩ := ih (by omega)
    obtain ⟨hnext, hturn⟩ := pass_turns h hrun hwrap hends hbegins (by omega) hx
    rw [if_pos hk] at hturn
    exact ⟨hturn.1, hturn.2, by rw [Int.natCast_succ]; exact hnext⟩

theorem exists_passStart {n : Nat} (hn : PassBegins run ends (.loop v terminal step line pos) n) :
    ∃ k, k < passes initial terminal step ∧ n = passStart ends k := by
  induction hn with
  | first => exact ⟨0, passes_pos _ _ _, rfl⟩
  | @again n selection hn hselection hframes ih =>
    obtain ⟨k, hk, rfl⟩ := ih
    obtain ⟨hbegins, -, hx⟩ := pass_begins h hrun hwrap hends hbegun hinitial hk
    obtain ⟨-, hturn⟩ := pass_turns h hrun hwrap hends hbegins hk hx
    by_cases hmore : k + 1 < passes initial terminal step
    · exact ⟨k + 1, hmore, rfl⟩
    · -- The loop has been left, so that its frame does not stand on those below it.
      rw [if_neg hmore] at hturn
      obtain ⟨after, hselected, -⟩ := hturn.selects
      have hsame : (run (ends (passStart ends k) + 1)).frames = selection.below :=
        congrArg Selection.below (Option.some.inj (hselected.symm.trans hselection))
      have hlength := congrArg List.length hframes
      rw [← hsame, List.length_cons] at hlength
      omega

theorem passStart_lt {i k : Nat} (hik : i < k) (hk : k < passes initial terminal step) :
    passStart ends i < passStart ends k := by
  induction k with
  | zero => exact absurd hik (Nat.not_lt_zero i)
  | succ k ih =>
    obtain ⟨hbegins, -, -⟩ := pass_begins h hrun hwrap hends hbegun hinitial (show k < _ by omega)
    have hle := (hends _ hbegins).le
    have hprev : passStart ends i ≤ passStart ends k := by
      obtain hlt | rfl := Nat.lt_or_eq_of_le (Nat.le_of_lt_succ hik)
      · exact Nat.le_of_lt (ih hlt (by omega))
      · exact Nat.le_refl _
    show _ < ends (passStart ends k) + 1
    omega

end

/-- The passes of a loop. A `FOR` that has room pushes its frame and stores the initial value. If
from there on every pass comes to a `NEXT` that selects the frame with the variable as the pass
began it, each pass begins one step further than the one before. There are as many passes as the
bounds and the step ask for, and the `NEXT` of the last one leaves the loop with the variable one
step past its last value. -/
theorem History.loop_passes {settings : Settings} {host : σ} {threshold : Option Severity}
    {past : List (Moment σ)} {run : Nat → Moment σ}
    (h : History (Session.start settings host threshold) past (run 0))
    (hrun : ∀ n, Next (run n) (run (n + 1))) {call : Call} {s : Session σ}
    (hfor : run 0 = .busy call .execute s) {t : LoopText} {after : List UInt8}
    (htext : s.interpreter.cursor.rest = t.source ++ after) (hend : EndsStatement after)
    {initial terminal step : Int16} {generator : Generator}
    (hvalues : t.reckon s.interpreter.memory.view s.interpreter.generator =
      .ok (initial, terminal, step) generator)
    (hroom : s.interpreter.memory.stackLimit + Memory.loopFrameSize ≤ s.interpreter.memory.stackTop)
    (hwrap : Unwrapped initial terminal step) {ends : Nat → Nat}
    (hends : ∀ n, PassBegins run ends (t.frame s.interpreter terminal step) n →
      PassEnds run t.counter (t.frame s.interpreter terminal step) n (ends n)) :
    (run 1).frames = t.frame s.interpreter terminal step :: (run 0).frames ∧
    (run 1).memory.value t.counter = initial ∧
    ∃ starts : List Nat, starts.length = passes initial terminal step ∧ starts.Pairwise (· < ·) ∧
      (∀ n, n ∈ starts ↔ PassBegins run ends (t.frame s.interpreter terminal step) n) ∧
      (∀ k n : Nat, starts[k]? = some n →
        (run n).GoesOnAt s.interpreter.currentLine (s.interpreter.textPos + t.source.length) ∧
        ((run n).memory.value t.counter).toInt = initial.toInt + k * step.toInt) ∧
      ∃ last, starts.getLast? = some last ∧
        Leaves t.counter (t.frame s.interpreter terminal step) (run (ends last))
          (run (ends last + 1)) ∧
        ((run (ends last + 1)).memory.value t.counter).toInt =
          initial.toInt + passes initial terminal step * step.toInt := by
  obtain ⟨l, frames, hready⟩ := h.exists_ready
  rw [hfor] at hready
  have hfirst := hrun 0
  rw [hfor] at hfirst
  obtain ⟨hpush, hinitial, -, -, hbegun⟩ := hfirst.of_loop hready htext hend hvalues hroom
  have hbegins {k : Nat} (hk : k < passes initial terminal step) :=
    pass_begins h hrun hwrap hends hbegun hinitial hk
  -- The passes begin where the walk from pass to pass says, as many as are due.
  refine ⟨hfor ▸ hpush, hinitial, (List.range (passes initial terminal step)).map (passStart ends),
    ?_, ?_,
    fun n => ?_, fun k n hn => ?_, passStart ends (passes initial terminal step - 1), ?_, ?_⟩
  · rw [List.length_map, List.length_range]
  · apply List.pairwise_map.2
    apply List.Pairwise.imp_of_mem ?_ List.pairwise_lt_range
    intro i k _ hk hik
    exact passStart_lt h hrun hwrap hends hbegun hinitial hik (List.mem_range.1 hk)
  · rw [List.mem_map]
    constructor
    · rintro ⟨k, hk, rfl⟩
      exact (hbegins (List.mem_range.1 hk)).1
    · intro hn
      obtain ⟨k, hk, rfl⟩ := exists_passStart h hrun hwrap hends hbegun hinitial hn
      exact ⟨k, List.mem_range.2 hk, rfl⟩
  · rw [List.getElem?_map, Option.map_eq_some_iff] at hn
    obtain ⟨i, hi, rfl⟩ := hn
    obtain ⟨hk, rfl⟩ := List.getElem?_eq_some_iff.1 hi
    rw [List.length_range] at hk
    rw [List.getElem_range]
    exact (hbegins hk).2
  · have hpos := passes_pos initial terminal step
    rw [List.getLast?_map, List.getLast?_range, if_neg (by omega)]
    rfl
  · have hpos := passes_pos initial terminal step
    obtain ⟨hlast, -, hx⟩ := hbegins (show passes initial terminal step - 1 < _ by omega)
    obtain ⟨hnext, hturn⟩ := pass_turns h hrun hwrap hends hlast (by omega) hx
    rw [if_neg (by omega)] at hturn
    refine ⟨hturn, ?_⟩
    rw [hnext]
    congr 2
    omega

def Moment.advance : Moment σ → Moment σ
  | .idle s => .idle s
  | .busy call phase s =>
    if call.atRest phase then .idle s
    else
      match Session.step phase s with
      | .ok phase s => .busy call phase s
      | .error _ s => .idle s

theorem Moment.next_advance (M : Moment σ) : Next M M.advance := by
  cases M with
  | idle s => exact .host s.host
  | busy call phase s =>
    rw [advance]
    split
    case isTrue hrest => exact .rest hrest
    case isFalse hrest =>
      have hbusy := Bool.eq_false_iff.2 hrest
      split
      case h_1 hrun => exact .step hbusy hrun
      case h_2 hrun => exact .stop hbusy hrun

def Moment.onward (M : Moment σ) (n : Nat) : Moment σ :=
  advance^[n] M

end

set_option linter.constructorNameAsVariable false in
/-- A loop of two passes in direct mode. -/
theorem History.loop_passes_of_two : ∃ run : Nat → Moment Script,
    (run 0).frames = [] ∧ (run 1).frames = [.loop ⟨8⟩ 2 1 none 454] ∧ (run 1).memory.value ⟨8⟩ = 1 ∧
    ∃ starts : List Nat, starts.length = 2 ∧ starts.Pairwise (· < ·) ∧
      (∀ n, n ∈ starts ↔ PassBegins run (· + 2) (.loop ⟨8⟩ 2 1 none 454) n) ∧
      ∃ last, starts.getLast? = some last ∧ ((run (last + 3)).memory.value ⟨8⟩).toInt = 3 := by
  have hrun : Ends (Session.enter 2 (ascii "FORI=1TO2:NEXT")
        (Session.start { ramSize := 1024, stackFrames := 100 } ({} : Script) none))
      (fun phase s => phase = .execute ∧ s.interpreter.cursor.rest = ascii "FORI=1TO2:NEXT" ∧
        s.interpreter.currentLine = none ∧ s.interpreter.textPos = 445 ∧
        s.interpreter.memory.stackLimit + Memory.loopFrameSize ≤ s.interpreter.memory.stackTop ∧
        ((Moment.busy .enter .execute s).onward 0).frames = [] ∧
        ((Moment.busy .enter .execute s).onward 3).selection = some
          ⟨.loop ⟨8⟩ 2 1 none 454, [], 459⟩ ∧
        ((Moment.busy .enter .execute s).onward 3).memory.value ⟨8⟩ =
          ((Moment.busy .enter .execute s).onward 1).memory.value ⟨8⟩ ∧
        ((Moment.busy .enter .execute s).onward 6).selection = some
          ⟨.loop ⟨8⟩ 2 1 none 454, [], 459⟩ ∧
        ((Moment.busy .enter .execute s).onward 6).memory.value ⟨8⟩ =
          ((Moment.busy .enter .execute s).onward 4).memory.value ⟨8⟩ ∧
        ((Moment.busy .enter .execute s).onward 7).frames = [])
      fun _ _ => False := by
    decide +kernel
  obtain ⟨_, s, hs, rfl, htext, hline, hpos, hroom, hempty, hfirst, hkept, hsecond, hkept',
      hleft⟩ := hrun.exists_ok
  obtain ⟨past, hexecute⟩ := History.start.enter_of_ok hs
  generalize hmoments : (Moment.busy .enter .execute s).onward =
    run at hempty hfirst hkept hsecond hkept' hleft
  have hzero : run 0 = .busy .enter .execute s := by
    rw [← hmoments]
    rfl
  have hnext (n : Nat) : Next (run n) (run (n + 1)) := by
    rw [← hmoments, show (Moment.busy .enter .execute s).onward (n + 1) =
      ((Moment.busy .enter .execute s).onward n).advance from Function.iterate_succ_apply'
        Moment.advance n _]
    exact Moment.next_advance _
  let value (n : Nat) : Operand :=
    let number : Phrase .relation := .plain (.unsigned (.single (.number n)))
    ⟨⟨[], by decide⟩, number, number.spell, number.spaced_spell false, ⟨[], by decide⟩⟩
  let loop : LoopText :=
    ⟨⟨[], by decide⟩, ⟨[], by decide⟩, ⟨8⟩, ⟨[], by decide⟩, value 1, value 2, none, nofun, nofun⟩
  have hsource : loop.source = ascii "FORI=1TO2" := by decide +kernel
  have hframe : loop.frame s.interpreter 2 1 = .loop ⟨8⟩ 2 1 none 454 := by
    rw [LoopText.frame, hline, hpos, hsource]
    rfl
  -- A pass takes three moments, and after the second one the loop has gone.
  have honly : ∀ n, PassBegins run (· + 2) (.loop ⟨8⟩ 2 1 none 454) n → n = 1 ∨ n = 4 := by
    intro n hn
    induction hn with
    | first => exact Or.inl rfl
    | again _ _ hframes ih =>
      obtain rfl | rfl := ih
      · exact Or.inr rfl
      · rw [hleft] at hframes
        cases hframes
  have hends : ∀ n, PassBegins run (· + 2) (.loop ⟨8⟩ 2 1 none 454) n →
      PassEnds run ⟨8⟩ (.loop ⟨8⟩ 2 1 none 454) n (n + 2) := by
    intro n hn
    obtain rfl | rfl := honly n hn
    · exact ⟨by decide, ⟨[], 459, hfirst⟩, hkept⟩
    · exact ⟨by decide, ⟨[], 459, hsecond⟩, hkept'⟩
  rw [← hframe] at hends ⊢
  have hrest : s.interpreter.cursor.rest = loop.source ++ ascii ":NEXT" := by
    rw [htext, hsource]
    rfl
  have hvalues : loop.reckon s.interpreter.memory.view s.interpreter.generator =
      .ok (1, 2, 1) s.interpreter.generator := rfl
  obtain ⟨hpush, hinitial, starts, hlength, hsorted, hstarts, -, last, hlast, -, hvalue⟩ :=
    History.loop_passes (hzero.symm ▸ hexecute) hnext hzero hrest (Or.inr rfl) hvalues hroom
      (by decide) hends
  rw [hempty] at hpush
  exact ⟨run, hempty, hpush, hinitial, starts, hlength, hsorted, hstarts, last, hlast, hvalue⟩

end LineBasic
