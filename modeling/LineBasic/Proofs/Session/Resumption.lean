import LineBasic.Host.Script
import LineBasic.Proofs.Session.DirectLine
import LineBasic.Proofs.Session.Stack

namespace LineBasic

/-- A list is split behind `T` and, elsewhere, behind `Q`. All up to `T` is up to `Q`, or the second
split is one of what is up to `T`, with `P` in it. -/
theorem split_before_or_within {α : Type} {front back newer older : List α} {T Q P : α}
    (h : front ++ T :: back = newer ++ Q :: P :: older) : (∀ N ∈ front ++ [T], N ∈ newer ++ [Q]) ∨
      ∃ rest, front ++ [T] = newer ++ Q :: P :: rest := by
  rw [List.append_cons, List.append_cons newer] at h
  obtain ⟨mid, hmid, -⟩ | ⟨mid, hmid, hback⟩ := List.append_eq_append_iff.1 h
  · left
    intro N hN
    rw [hmid]
    exact List.mem_append_left mid hN
  · cases mid with
    | nil =>
      left
      intro N hN
      rwa [hmid, List.append_nil] at hN
    | cons R mid =>
      obtain ⟨rfl, -⟩ := List.cons.inj hback
      right
      exact ⟨mid, by rw [hmid, List.append_assoc, List.singleton_append]⟩

namespace Memory
variable {m m' : Memory} {pos last : Nat}

/-- At the position the same bytes stand in both buffers, up to and including the next marker. -/
def SameTail (m m' : Memory) (pos : Nat) : Prop :=
  ∃ text, Byte.marker ∉ text ∧ Stands m.ram pos (text ++ [Byte.marker]) ∧
    Stands m'.ram pos (text ++ [Byte.marker])

theorem SameTail.like (h : m.SameTail m' pos) : Cursor.Like ⟨m.ram, pos⟩ ⟨m'.ram, pos⟩ := by
  obtain ⟨text, hmarker, hm, hm'⟩ := h
  exact ⟨rfl, by rw [Cursor.rest_of_stands hm hmarker, Cursor.rest_of_stands hm' hmarker]⟩

/-- Buffers that agree up to a marker have the same text before it. -/
theorem Agree.sameTail (h : Agree m.ram m'.ram pos (last + 1)) (hpos : pos ≤ last)
    (hlast : m.ram[last]? = some Byte.marker) : m.SameTail m' pos := by
  obtain ⟨hsize, -⟩ := Array.getElem?_eq_some_iff.1 hlast
  have hend : endOfLine m.ram pos ≤ last :=
    endOfLine_le hpos (by rw [Array.getD_eq_getD_getElem?, hlast]; rfl)
  have hstands : Stands m.ram pos (Cursor.rest ⟨m.ram, pos⟩ ++ [Byte.marker]) :=
    stands_rest (Nat.lt_of_le_of_lt hend hsize)
  have hrest := Cursor.pos_add_length_rest ⟨m.ram, pos⟩
  dsimp only at hrest
  refine ⟨_, Cursor.marker_notMem_rest _, hstands, hstands.congr (h.mono (Nat.le_refl _) ?_)⟩
  rw [List.length_append, List.length_singleton]
  omega

end Memory

/-- A `RETURN` or a `NEXT` takes the interpreter back to where this frame continues. -/
def Interpreter.Resumes (i : Interpreter) (frame : Frame) (j : Interpreter) : Prop :=
  (i.keyword = some .goBack ∧ (∃ address, i.memory.findGosub = some (address, frame)) ∨
    i.keyword = some .next ∧ ∃ v address, i.memory.findLoop v = some (address, frame)) ∧
  j.currentLine = frame.line ∧ j.textPos = frame.pos

namespace Moment
variable {σ : Type} {frame : Frame} {M M' : Moment σ}

/-- A statement is executed that resumes this frame. -/
def Resumes (frame : Frame) : Moment σ → Moment σ → Prop
  | busy _ .execute s, busy _ .proceed s' => s.interpreter.Resumes frame s'.interpreter
  | _, _ => False

theorem Resumes.mem_frames (h : Resumes frame M M') : frame ∈ M.frames := by
  have hmem {address : Nat} (hm : (address, frame) ∈ M.memory.frames) : frame ∈ M.frames :=
    List.mem_map_of_mem (f := Prod.snd) hm
  unfold Resumes at h
  split at h
  case h_1 call s call' s' =>
    obtain ⟨⟨-, address, hfound⟩ | ⟨-, v, address, hfound⟩, -⟩ := h
    · exact hmem (List.mem_of_find?_eq_some hfound)
    · exact hmem (List.mem_of_find?_eq_some hfound)
  case h_2 => exact absurd h id

end Moment

open Interpreter (Spares Continues)

variable {σ : Type} {d : Nat} {frame : Frame} {M M' N T : Moment σ} {since past : List (Moment σ)}

/-- What a resumed frame goes on with in `m`, where the line that begins at `d` has been executed
since `T`. -/
inductive Resumption (frame : Frame) (d : Nat) (T : Moment σ) (since : List (Moment σ))
    (m : Memory) : Prop
  /-- The frame was pushed since the line began. It goes on with what stood there then, unless
  execution has left the line for what is below it, which only an older frame can make it do. -/
  | within {newer older : List (Moment σ)} {Q P : Moment σ}
    (he : since ++ [T] = newer ++ Q :: P :: older)
      (hpush : P.Pushes frame Q.session.interpreter) (hstanding : Standing frame (newer ++ [Q]))
      (hsame : d ≤ frame.pos ∨ Continues T.frames d → Q.memory.SameTail m frame.pos) :
      Resumption frame d T since m
  /-- The frame is older than the line. It goes on with what the line has there, if it reaches so
  far down. -/
  | older (hstanding : Standing frame (since ++ [T])) (hsame : d ≤ frame.pos →
    T.memory.SameTail m frame.pos) :
      Resumption frame d T since m

/-- Up to the variables, what the line has at a position it still has there. -/
theorem LineSince.sameTail {pos : Nat} (h : LineSince d T since)
    (hM : Spares d T.session.interpreter M.session.interpreter) (hmarked : M.memory.Marked)
    (hN : N ∈ since ++ [T]) (hd : d ≤ pos) (hpos : pos < M.memory.variablesBegin) :
    N.memory.SameTail M.memory pos := by
  have hspares : Spares d T.session.interpreter N.session.interpreter := by
    rcases List.mem_append.1 hN with hN | hN
    · exact h.spares N hN
    · rw [List.mem_singleton.1 hN]
      exact .refl d _
  have hv : M.memory.variablesBegin = T.memory.variablesBegin := hM.variablesBegin_eq
  have hagree : Memory.Agree N.memory.ram M.memory.ram d M.memory.variablesBegin := by
    rw [hv]
    intro i hi hl
    exact (hM.agree i hi hl).trans (hspares.agree i hi hl).symm
  have hlast : N.memory.ram[M.memory.variablesBegin - 1]? = some Byte.marker := by
    rw [← hagree _ (by omega) (by omega)]
    exact hmarked
  exact (hagree.mono hd (by omega)).sameTail (by omega) hlast

variable [Host σ]

/-- Whenever `RETURN` or `NEXT` resumes a frame in direct mode, a direct line has been executed
since some moment, and no other has begun. If the frame was pushed since then, it resumes the text
that it was saved in; an older frame resumes the text of this line, whatever it was saved in. -/
theorem History.resumes_text {settings : Settings} {host : σ} {threshold : Option Severity}
    (h : History (Session.start settings host threshold) past M) (hn : Next M M')
    (hr : M.Resumes frame M') (hdirect : frame.line = none) :
    ∃ d since T before, M :: past = since ++ T :: before ∧ LineSince d T since ∧
      Resumption frame d T since M'.memory := by
  have hmem := hr.mem_frames
  obtain ⟨l, frames, hready⟩ := h.exists_ready
  obtain ⟨l', frames', hready'⟩ := (h.next hn).exists_ready
  obtain ⟨call, s, call', s', rfl, rfl⟩ : ∃ call s call' s', M = .busy call .execute s ∧
      M' = .busy call' .proceed s' := by
    unfold Moment.Resumes at hr
    split at hr
    case h_1 call s call' s' => exact ⟨call, s, call', s', rfl, rfl⟩
    case h_2 => exact absurd hr id
  obtain ⟨d, since, T, before, he, hline, hu, hcontinues⟩ := h.lineSince trivial
  -- The step spares the line.
  obtain ⟨e, hb, -⟩ | ⟨-, hcarried⟩ := hn.underway hready trivial
  · exact absurd hb id
  obtain ⟨-, -, hspares, -⟩ := hcarried d hu
  have hM : Spares d T.session.interpreter s'.interpreter := (hline.spares_head he).trans hspares
  have hrunning : s'.interpreter.Running l' frames' := hready'
  have hv : s'.interpreter.memory.variablesBegin = s.interpreter.memory.variablesBegin :=
    hspares.variablesBegin_eq
  have hpos : frame.pos < s'.interpreter.memory.variablesBegin := by
    rw [hv]
    have hresumes := hready.sane.resumes frame (hready.frames_eq ▸ hmem)
    rw [hdirect] at hresumes
    exact hresumes.2
  have hsame {N : Moment σ} (hN : N ∈ since ++ [T]) (hd : d ≤ frame.pos) : N.memory.SameTail
      s'.interpreter.memory frame.pos :=
    hline.sameTail (M := .busy call' .proceed s') hM hrunning.marked hN hd hpos
  obtain ⟨newer, Q, P, older, he', hpush, -, hstanding⟩ := h.pushedAsIs hmem
  refine ⟨d, since, T, before, he, hline, ?_⟩
  -- Either moment may be the later one: that of the push, and that in which the line began.
  obtain hbefore | ⟨rest, hwithin⟩ := split_before_or_within (he.symm.trans he')
  · exact .older (fun N hN => hstanding N (hbefore N hN))
      (hsame (List.mem_append_right _ (List.mem_singleton_self T)))
  · have hQ : Q ∈ since ++ [T] := hwithin ▸ List.mem_append_right _ List.mem_cons_self
    have hfloor (hc : Continues T.frames d) : d ≤ frame.pos := (hcontinues hc).1 frame hmem hdirect
    exact .within hwithin hpush hstanding fun hd => hsame hQ (hd.elim id hfloor)

set_option linter.constructorNameAsVariable false in
/-- A line that repeats its own loop. -/
theorem History.resumes_text_of_loop : ∃ (past : List (Moment Script)) (s s' : Session Script),
    (Moment.busy .enter .execute s).Resumes (.loop ⟨8⟩ 2 1 none 454) (.busy .enter .proceed s') ∧
      ∃ d since T before, .busy .enter .execute s :: past = since ++ T :: before ∧
      LineSince d T since ∧
        Resumption (.loop ⟨8⟩ 2 1 none 454) d T since s'.interpreter.memory := by
  have hrun : Ends (Session.enter 5 (ascii "FORI=1TO2:NEXT")
        (Session.start { ramSize := 1024, stackFrames := 100 } ({} : Script) none))
      (fun phase s => phase = .execute ∧ s.interpreter.keyword = some .next ∧
        s.interpreter.memory.findLoop none = some (1014, .loop ⟨8⟩ 2 1 none 454) ∧
        Ends (Session.step .execute s)
          (fun phase s' => phase = .proceed ∧ s'.interpreter.currentLine = none ∧
            s'.interpreter.textPos = 454)
          fun _ _ => False)
      fun _ _ => False := by
    decide +kernel
  obtain ⟨_, s, hs, rfl, hnext, hfound, hstep⟩ := hrun.exists_ok
  obtain ⟨_, s', hs', rfl, hline, hpos⟩ := hstep.exists_ok
  obtain ⟨past, hexecute⟩ := History.start.enter_of_ok hs
  have hresumes : (Moment.busy .enter .execute s).Resumes (.loop ⟨8⟩ 2 1 none 454)
      (.busy .enter .proceed s') :=
    ⟨Or.inr ⟨hnext, none, 1014, hfound⟩, hline, hpos⟩
  exact ⟨past, s, s', hresumes, hexecute.resumes_text (.step rfl hs') hresumes rfl⟩

/-- A frame continues at the end of the statement that pushes it. -/
theorem Effect.atEnd {l : Listing} {frames frames' : List Frame} {i j : Interpreter} {phase : Phase}
    (h : Effect l frames i phase frames' j) (hi : i.Running l frames)
    (hf : frames' = frame :: frames) :
    Cursor.atEndOfStatement ⟨j.memory.ram, frame.pos⟩ = true := by
  have hlength := congrArg List.length hf
  rw [List.length_cons] at hlength
  -- Pushing changes nothing below the variables, where the statement ends.
  have hend {k : Interpreter} (hr : i.ReadOn k) (he : k.AtEnd) :
      Cursor.atEndOfStatement ⟨j.memory.ram, k.textPos⟩ = true := by
    have hk := hr.running hi
    have hpos : k.textPos < i.memory.variablesBegin := hr.memory_eq ▸ (hk.inside.lt hk.extent_lt).1
    have hpeek : Cursor.peek ⟨j.memory.ram, k.textPos⟩ = k.cursor.peek := by
      show j.memory.ram.getD k.textPos Byte.marker = k.memory.ram.getD k.textPos Byte.marker
      rw [Array.getD_eq_getD_getElem?, Array.getD_eq_getD_getElem?, hr.memory_eq,
        (hi.spares h).agree k.textPos (Nat.zero_le _) hpos]
    unfold Cursor.atEndOfStatement
    rw [hpeek]
    exact he
  cases h with
  | pass | ask | store | run | finish | jump => exact absurd hlength (by simp)
  | call number hr he =>
    obtain ⟨rfl, -⟩ := List.cons.inj hf
    exact hend hr he
  | loop v initial terminal step hr he =>
    obtain ⟨rfl, -⟩ := List.cons.inj hf
    exact hend hr he
  | goBack _ hf' | again _ hf' | leave _ hf' =>
    rw [hf'] at hlength
    simp only [List.length_append, List.length_cons] at hlength
    omega

theorem Next.atEnd {l : Listing} {frames : List Frame} {P Q : Moment σ} (hn : Next P Q)
    (hP : P.Ready l frames) (hQ : Q.frames = frame :: P.frames) :
    Cursor.atEndOfStatement ⟨Q.memory.ram, frame.pos⟩ = true := by
  obtain ⟨call, s, phase, s', rfl, rfl, he⟩ := hn.effect_of_push hP hQ
  have hs : s.interpreter.Running l frames := hP
  exact he.atEnd hs rfl

set_option linter.constructorNameAsVariable false in
set_option synthInstance.maxSize 512 in
/-- A loop resumed by another line than the one that began it: it does not go on with what stood
there when it was begun. -/
theorem History.resumes_other_text :
    ¬ ∀ (past : List (Moment Script)) (M M' : Moment Script) (frame : Frame),
      History (Session.start { ramSize := 1024, stackFrames := 100 } {} none) past M → Next M M' →
      M.Resumes frame M' →
      frame.line = none → ∃ after Q P before, M :: past = after ++ Q :: P :: before ∧
        P.Pushes frame Q.session.interpreter ∧ Q.frames = frame :: P.frames ∧
        Standing frame (after ++ [Q]) ∧
        Q.memory.SameTail M'.memory frame.pos := by
  have hrun : Ends (Session.enter 20 (ascii "FORI=1TO2:?I")
        (Session.start { ramSize := 1024, stackFrames := 100 } ({} : Script) none))
      (fun phase s => phase = .prompt ∧ Ends (Session.enter 2 (ascii "NEXT") s)
        (fun phase s => phase = .execute ∧ s.interpreter.keyword = some .next ∧
          s.interpreter.memory.findLoop none = some (1014, .loop ⟨8⟩ 2 1 none 456) ∧
          Ends (Session.step .execute s)
            (fun phase s' => phase = .proceed ∧ s'.interpreter.currentLine = none ∧
              s'.interpreter.textPos = 456 ∧
              Cursor.atEndOfStatement ⟨s'.interpreter.memory.ram, 456⟩ = false)
            fun _ _ => False)
        fun _ _ => False)
      fun _ _ => False := by
    decide +kernel
  intro hclaim
  obtain ⟨_, s₀, hs₀, rfl, hagain⟩ := hrun.exists_ok
  obtain ⟨_, s, hs, rfl, hnext, hfound, hstep⟩ := hagain.exists_ok
  obtain ⟨_, s', hs', rfl, hline, hpos, hinside⟩ := hstep.exists_ok
  obtain ⟨past, hlooped⟩ := History.start.enter_of_ok hs₀
  obtain ⟨past', hexecute⟩ := (hlooped.next (.rest rfl)).enter_of_ok hs
  obtain ⟨after, Q, P, before, he, -, hQ, -, hsame⟩ := hclaim past' (.busy .enter .execute s)
    (.busy .enter .proceed s') (.loop ⟨8⟩ 2 1 none 456) hexecute (.step rfl hs')
    ⟨Or.inr ⟨hnext, none, 1014, hfound⟩, hline, hpos⟩ rfl
  obtain ⟨hP, hn⟩ := hexecute.next_of_eq he
  obtain ⟨l, frames, hready⟩ := hP.exists_ready
  -- Where the loop was begun its statement ended there; now there is a letter.
  have hend := hn.atEnd hready hQ
  have hstill : Cursor.atEndOfStatement ⟨s'.interpreter.memory.ram, 456⟩ = true :=
    hsame.like.atEndOfStatement_eq.trans hend
  exact Bool.noConfusion (hstill.symm.trans hinside)

end LineBasic
