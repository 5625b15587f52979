import LineBasic.Proofs.Session.DirectLine
import LineBasic.Proofs.Session.LineEditor
import LineBasic.Proofs.Session.Repetition
import LineBasic.Proofs.Session.Tracking
import LineBasic.Proofs.Session.Writing

namespace LineBasic
variable {σ τ ι : Type}

open Editor (strike edit answer answers)

namespace Memory
variable {m m' m'' : Memory} {last room pos : Nat} {line keys : List UInt8} {b : UInt8}

theorem Stands.dropLast {ram : Array UInt8} {start : Nat} (h : Stands ram start line) :
    Stands ram start line.dropLast := by
  intro k hk
  rw [List.length_dropLast] at hk
  rw [h k (by omega), List.getElem?_dropLast, if_pos hk]

structure OnlyEntry (m : Memory) (last : Nat) (m' : Memory) : Prop where
  registers_eq : m' = { m with ram := m'.ram }
  size_eq : m'.size = m.size
  agree : ∀ k, k < m.entryStart ∨ last < k → m'.ram[k]? = m.ram[k]?

theorem OnlyEntry.refl (m : Memory) (last : Nat) : m.OnlyEntry last m :=
  ⟨rfl, rfl, fun _ _ => rfl⟩

theorem OnlyEntry.entryStart_eq (h : m.OnlyEntry last m') : m'.entryStart = m.entryStart := by
  rw [h.registers_eq]
  rfl

theorem OnlyEntry.trans (h : m.OnlyEntry last m') (h' : m'.OnlyEntry last m'') :
    m.OnlyEntry last m'' := by
  refine ⟨?_, h'.size_eq.trans h.size_eq, fun k hk => ?_⟩
  · rw [h'.registers_eq, h.registers_eq]
  · rw [h'.agree k (h.entryStart_eq ▸ hk), h.agree k hk]

theorem OnlyEntry.onlyGap (h : m.OnlyEntry last m') (hl : last < m.variablesBegin) :
    m.OnlyGap m' := by
  have hregisters := h.registers_eq
  refine ⟨⟨h.size_eq, ?_, ?_, ?_⟩, ?_, fun k _ hk => h.agree k (Or.inl ?_), fun k hk _ => h.agree k
    (Or.inr ?_)⟩
  · rw [hregisters]
  · rw [hregisters]
  · rw [hregisters]
  · rw [hregisters]
  · exact Nat.lt_of_lt_of_le hk (Nat.le_add_right _ _)
  · exact Nat.lt_of_lt_of_le hl hk

theorem Typing.onlyEntry_typed (h : m.Typing pos) (hm : m.Layout) (hl : pos ≤ last) (b : UInt8) :
    m.OnlyEntry last (m.typed pos b) := by
  have hle := h.le
  have hlt := h.lt
  have hv := hm.variables_le_size
  have hfits : pos + [b].length ≤ m.ram.size := by show pos + 1 ≤ m.size; omega
  refine ⟨rfl, size_overwrite _ _ _, fun k hk => ?_⟩
  show (overwrite _ _ _)[k]? = _
  rw [getElem?_overwrite _ _ _ _ hfits, List.length_singleton, if_neg (by omega)]

theorem Typing.stands_typed (h : m.Typing (m.entryStart + line.length)) (hm : m.Layout)
    (hs : Stands m.ram m.entryStart line) (b : UInt8) :
    Stands (m.typed (m.entryStart + line.length) b).ram m.entryStart (line ++ [b]) := by
  have hlt := h.lt
  have hv := hm.variables_le_size
  have hfits : m.entryStart + line.length + [b].length ≤ m.ram.size := by
    show m.entryStart + line.length + 1 ≤ m.size
    omega
  exact stands_append.2 ⟨hs.congr (agree_overwrite_below hfits (Nat.le_refl _)),
    stands_overwrite hfits⟩

def struck (m : Memory) (room : Nat) (line : List UInt8) (b : UInt8) : Memory :=
  if Byte.IsText b ∧ line.length < room then m.typed (m.entryStart + line.length) b else m

def strikes (m : Memory) (room : Nat) (line : List UInt8) : List UInt8 → Memory
  | [] => m
  | b :: keys => (m.struck room line b).strikes room (strike room line b) keys

def keyed (m : Memory) (room : Nat) (keys : List UInt8) : Memory :=
  (m.strikes room [] keys).typed (m.entryStart + (edit room [] keys).length) Byte.marker

theorem struck_of_room (h : Byte.IsText b) (hroom : line.length < room) :
    m.struck room line b = m.typed (m.entryStart + line.length) b :=
  if_pos ⟨h, hroom⟩

theorem struck_of_not (h : ¬ (Byte.IsText b ∧ line.length < room)) : m.struck room line b = m :=
  if_neg h

theorem Typing.of_length_le (htop : m.Typing (m.entryStart + room)) (hline : line.length ≤ room) :
    m.Typing (m.entryStart + line.length) := by
  obtain ⟨-, hlt, hshort⟩ := htop
  exact ⟨Nat.le_add_right _ _, by omega, by omega⟩

theorem OnlyEntry.typing (h : m.OnlyEntry last m') (hp : m.Typing pos) : m'.Typing pos := by
  rw [h.registers_eq]
  exact ⟨hp.le, hp.lt, hp.short⟩

section
variable (hm : m.Layout) (htop : m.Typing (m.entryStart + room)) (hline : line.length ≤ room)
include hm htop hline

theorem onlyEntry_struck (b : UInt8) :
    m.OnlyEntry (m.entryStart + room) (m.struck room line b) := by
  by_cases h : Byte.IsText b ∧ line.length < room
  · rw [struck_of_room h.1 h.2]
    exact (htop.of_length_le hline).onlyEntry_typed hm (Nat.add_le_add_left hline _) b
  · rw [struck_of_not h]
    exact .refl _ _

theorem layout_struck (b : UInt8) : (m.struck room line b).Layout :=
  ((onlyEntry_struck hm htop hline b).onlyGap (by have := htop.lt; omega)).layout hm

theorem stands_struck (hs : Stands m.ram m.entryStart line) (b : UInt8) :
    Stands (m.struck room line b).ram m.entryStart (strike room line b) := by
  by_cases herase : Byte.Erases b
  · rw [Editor.strike_of_erases herase, struck_of_not fun h => h.1.not_erases herase]
    exact hs.dropLast
  by_cases h : Byte.IsText b ∧ line.length < room
  · rw [struck_of_room h.1 h.2, Editor.strike_of_room h.1 h.2]
    exact (htop.of_length_le hline).stands_typed hm hs b
  · rw [struck_of_not h, strike, if_neg herase, if_neg h]
    exact hs

theorem onlyEntry_strikes (keys : List UInt8) :
    m.OnlyEntry (m.entryStart + room) (m.strikes room line keys) := by
  induction keys generalizing m line with
  | nil => exact .refl _ _
  | cons b keys ih =>
    have hstruck := onlyEntry_struck hm htop hline b
    have hrest := @ih _ (strike room line b) (layout_struck hm htop hline b)
      (hstruck.entryStart_eq ▸ hstruck.typing htop) (Editor.length_strike_le hline)
    rw [hstruck.entryStart_eq] at hrest
    exact hstruck.trans hrest

theorem stands_strikes (hs : Stands m.ram m.entryStart line) (keys : List UInt8) :
    Stands (m.strikes room line keys).ram m.entryStart (edit room line keys) := by
  induction keys generalizing m line with
  | nil => exact hs
  | cons b keys ih =>
    have hstruck := onlyEntry_struck hm htop hline b
    have hrest := @ih _ (strike room line b) (layout_struck hm htop hline b)
      (hstruck.entryStart_eq ▸ hstruck.typing htop) (Editor.length_strike_le hline)
      (hstruck.entryStart_eq ▸ stands_struck hm htop hline hs b)
    rwa [hstruck.entryStart_eq] at hrest

end

section
variable (hm : m.Layout) (htop : m.Typing (m.entryStart + room)) (keys : List UInt8)
include hm htop

theorem typing_strikes : (m.strikes room [] keys).Layout ∧
    (m.strikes room [] keys).Typing (m.entryStart + (edit room [] keys).length) := by
  have honly := onlyEntry_strikes hm htop (show [].length ≤ room from Nat.zero_le _) keys
  have hlt := htop.lt
  have hlength : (edit room [] keys).length ≤ room := Editor.length_edit_le (Nat.zero_le _) keys
  exact ⟨(honly.onlyGap (by omega)).layout hm, honly.typing (htop.of_length_le hlength)⟩

/-- Typing changes no byte before the line, and none after the last place that its marker may have.
-/
theorem onlyEntry_keyed : m.OnlyEntry (m.entryStart + room) (m.keyed room keys) := by
  have honly := onlyEntry_strikes hm htop (show [].length ≤ room from Nat.zero_le _) keys
  obtain ⟨hm', htyping⟩ := typing_strikes hm htop keys
  have hlength : (edit room [] keys).length ≤ room := Editor.length_edit_le (Nat.zero_le _) keys
  exact honly.trans (htyping.onlyEntry_typed hm' (Nat.add_le_add_left hlength _) Byte.marker)

/-- The line that the editor leaves stands in the buffer with its marker. -/
theorem stands_keyed :
    Stands (m.keyed room keys).ram m.entryStart (edit room [] keys ++ [Byte.marker]) := by
  have honly := onlyEntry_strikes hm htop (show [].length ≤ room from Nat.zero_le _) keys
  have hstands := stands_strikes hm htop (show [].length ≤ room from Nat.zero_le _)
    (stands_nil m.ram m.entryStart) keys
  obtain ⟨hm', htyping⟩ := typing_strikes hm htop keys
  rw [← honly.entryStart_eq] at htyping hstands
  have hended := htyping.stands_typed hm' hstands Byte.marker
  rwa [honly.entryStart_eq] at hended

theorem typed_keyed : (m.keyed room keys).Typed (edit room [] keys) := by
  have honly := onlyEntry_keyed hm htop keys
  have hlt := htop.lt
  have hshort : m.entryStart + room ≤ m.entryStart + 252 := htop.short
  have hlength : (edit room [] keys).length ≤ room := Editor.length_edit_le (Nat.zero_le _) keys
  have hstands := stands_keyed hm htop keys
  refine ⟨Editor.marker_notMem_edit room keys, by omega, ?_, ?_⟩
  · rw [honly.entryStart_eq, honly.registers_eq]
    show m.entryStart + _ + 2 ≤ m.variablesBegin
    omega
  · rwa [honly.entryStart_eq]

end
end Memory

namespace Interpreter
variable {i : Interpreter} {m : Memory}

/-- How many bytes the line that is typed may have. -/
def room (i : Interpreter) : Nat :=
  i.entryEnd - i.memory.entryStart

theorem typing_room (hm : i.memory.Layout) : i.memory.Typing (i.memory.entryStart + i.room) := by
  have hreserve := hm.reserve
  obtain ⟨hend, hshort⟩ := i.entryEnd_le
  refine ⟨Nat.le_add_right _ _, ?_, ?_⟩
  · simp only [room, Memory.entryStart, Memory.entryHeadroom] at *
    omega
  · unfold room
    omega

theorem room_withMemory {last : Nat} (h : i.memory.OnlyEntry last m) :
    (i.withMemory m).room = i.room := by
  rw [h.registers_eq]
  rfl

end Interpreter

/-- A line is being typed for this purpose, and nothing else has changed since it was asked for. -/
def Interpreter.Enters (i : Interpreter) (purpose : Purpose) (phase : Phase) (j : Interpreter) :
    Prop :=
  (phase = .ask purpose ∨ ∃ pos, phase = .edit purpose pos) ∧
    ∃ m, i.memory.OnlyEntry (i.memory.entryStart + i.room) m ∧ j = i.withMemory m

namespace Call

theorem atRest_ask (call : Call) (purpose : Purpose) : call.atRest (.ask purpose) = false := by
  cases call with
  | enter => rfl
  | serve => rfl

theorem atRest_edit (call : Call) (purpose : Purpose) (pos : Nat) :
    call.atRest (.edit purpose pos) = false := by
  cases call with
  | enter => rfl
  | serve => rfl

theorem atRest_of_enters (call : Call) {i j : Interpreter} {purpose : Purpose} {phase : Phase}
    (h : i.Enters purpose phase j) : call.atRest phase = false := by
  obtain ⟨rfl | ⟨pos, rfl⟩, -⟩ := h
  · exact call.atRest_ask purpose
  · exact call.atRest_edit purpose pos

end Call

namespace Session

section
variable [Host σ] {during during' : Phase → Session σ → Prop} {n n' : Nat}
  {phase phase' phase'' : Phase}
  {s s' s'' : Session σ}

/-- So many steps lead from one phase and session to another, and this holds of all that they are
taken from. -/
inductive Runs (during : Phase → Session σ → Prop) : Nat → Phase → Session σ → Phase →
    Session σ → Prop
  | none (phase : Phase) (s : Session σ) : Runs during 0 phase s phase s
  | step {n : Nat} {phase next phase' : Phase} {s t s' : Session σ} (hd : during phase s)
      (hstep : Session.step phase s = .ok next t) (h : Runs during n next t phase' s') :
      Runs during (n + 1) phase s phase' s'

theorem Runs.trans (h : Runs during n phase s phase' s')
    (h' : Runs during n' phase' s' phase'' s'') :
    Runs during (n' + n) phase s phase'' s'' := by
  induction h with
  | none => exact h'
  | step hd hstep _ ih => exact .step hd hstep (ih h')

theorem Runs.mono (h : Runs during n phase s phase' s')
    (hd : ∀ phase s, during phase s → during' phase s) :
    Runs during' n phase s phase' s' := by
  induction h with
  | none phase s => exact .none phase s
  | step hphase hstep _ ih => exact .step (hd _ _ hphase) hstep ih

theorem Runs.drive_eq {atRest : Phase → Bool} (h : Runs during n phase s phase' s')
    (hrest : ∀ phase s, during phase s → atRest phase = false) (steps : Nat) :
    drive atRest (steps + n) phase s = drive atRest steps phase' s' := by
  induction h with
  | none => rfl
  | step hd hstep _ ih =>
    rw [← Nat.add_assoc, drive_succ_eq, hrest _ _ hd]
    exact (bind_of_ok hstep).trans ih

end

variable [Host σ] {P : σ → Prop} {b : UInt8} {host : σ} {pos : Nat} {line keys : List UInt8}

theorem typeByte_of_read {s : Session σ} (purpose : Purpose) (hm : s.interpreter.memory.Layout)
    (hr : Host.read s.host = .ok b host) :
    typeByte purpose pos s = (
      if Byte.EndsLine b then do
        if s.interpreter.echo then newline
        onMemory (Memory.write pos [Byte.marker])
        takeFor purpose
      else if Byte.Erases b then
        if s.interpreter.memory.entryStart < pos then do
          if s.interpreter.echo then print [Byte.backspace, Byte.blank, Byte.backspace]
          return .edit purpose (pos - 1)
        else return .edit purpose pos
      else if b < Byte.blank ∧ b ≠ Byte.tab then return .edit purpose pos
      else if s.interpreter.entryEnd ≤ pos then do
        writeByte Byte.bell
        return .edit purpose pos
      else do
        onMemory (Memory.write pos [b])
        if s.interpreter.echo then writeByte b
        return .edit purpose (pos + 1) : Act σ Phase) { s with host } := by
  have hread : readByte s = .ok b { s with host } := by
    simp only [readByte, onHost, hr]
  unfold typeByte
  refine (bind_of_ok (show look (·.memory.entryStart) s = .ok s.interpreter.memory.entryStart s
    from rfl)).trans ?_
  rw [bind_of_ok (entryLimit_eq hm)]
  refine (bind_of_ok (show look (·.echo) s = .ok s.interpreter.echo s from rfl)).trans ?_
  rw [bind_of_ok hread]
  cases purpose with
  | command => rfl
  | reply v resume => rfl

variable {s : Session (Recorded σ)}

section
variable (hP : WritesThrough P) (hm : s.interpreter.memory.Layout)
  (hr : Host.read s.host.host = .ok b host) (hhost : P host)
include hP hm hr hhost

/-- A backspace erases the last byte of the line, if there is one. -/
theorem typeByte_erases (purpose : Purpose) (line : List UInt8) (herase : Byte.Erases b)
    (hend : ¬ Byte.EndsLine b) : ∃ host, P host ∧
    typeByte purpose (s.interpreter.memory.entryStart + line.length) s =
      .ok (.edit purpose (s.interpreter.memory.entryStart + line.dropLast.length))
        { s with host := ⟨host, s.host.written ++ answer s.interpreter.echo
          s.interpreter.room line b⟩ } := by
  have hlt : s.interpreter.memory.entryStart < s.interpreter.memory.entryStart + line.length ↔
      line ≠ [] := by
    rw [← List.length_pos_iff]
    omega
  rw [typeByte_of_read purpose hm (Recorded.read_eq hr), if_neg hend, if_pos herase,
    Editor.answer_of_erases _ herase, List.length_dropLast]
  by_cases hnil : line = []
  · rw [if_neg fun h => hlt.1 h hnil, if_neg fun h => h.2 hnil, hnil, List.append_nil]
    exact ⟨host, hhost, rfl⟩
  rw [if_pos (hlt.2 hnil), ← Nat.add_sub_assoc (List.length_pos_iff.2 hnil)]
  cases hecho : s.interpreter.echo with
  | true =>
    obtain ⟨host', hP', hprint⟩ := writes_print hP [Byte.backspace, Byte.blank, Byte.backspace]
      { s with host := ⟨host, s.host.written⟩ } hhost
    rw [if_pos (show true = true ∧ line ≠ [] from ⟨rfl, hnil⟩)]
    exact ⟨host', hP', bind_of_ok hprint⟩
  | false =>
    rw [if_neg (show ¬ (false = true ∧ line ≠ []) from fun h => Bool.false_ne_true h.1),
      List.append_nil]
    exact ⟨host, hhost, rfl⟩

/-- A byte of text that has room is put after the line. -/
theorem typeByte_inserts (purpose : Purpose) (line : List UInt8) (htext : Byte.IsText b)
    (hroom : line.length < s.interpreter.room) : ∃ host, P host ∧
    typeByte purpose (s.interpreter.memory.entryStart + line.length) s =
      .ok (.edit purpose (s.interpreter.memory.entryStart + (line ++ [b]).length))
        { s with
          interpreter := s.interpreter.withMemory
            (s.interpreter.memory.typed (s.interpreter.memory.entryStart + line.length) b)
          host := ⟨host, s.host.written ++ if s.interpreter.echo then [b] else []⟩ } := by
  obtain ⟨-, -, hcontrol⟩ := htext.unedited
  have hp := (Interpreter.typing_room hm).of_length_le (Nat.le_of_lt hroom)
  have hfits : ¬ s.interpreter.entryEnd ≤ s.interpreter.memory.entryStart + line.length := by
    unfold Interpreter.room at hroom
    omega
  have hput (host : Recorded σ) : onMemory (Memory.write
    (s.interpreter.memory.entryStart + line.length) [b])
      { s with host } = .ok () { s with
        interpreter := s.interpreter.withMemory
          (s.interpreter.memory.typed (s.interpreter.memory.entryStart + line.length) b)
        host } :=
    onMemory_of_ok (hp.write_eq hm b)
  rw [typeByte_of_read purpose hm (Recorded.read_eq hr), if_neg htext.not_endsLine,
    if_neg htext.not_erases, if_neg hcontrol, if_neg hfits, List.length_append,
    List.length_singleton, bind_of_ok (hput _)]
  cases hecho : s.interpreter.echo with
  | true =>
    obtain ⟨host', hP', hwrite⟩ := writes_writeByte hP b { s with
      interpreter := s.interpreter.withMemory
        (s.interpreter.memory.typed (s.interpreter.memory.entryStart + line.length) b)
      host := ⟨host, s.host.written⟩ } hhost
    exact ⟨host', hP', bind_of_ok hwrite⟩
  | false => exact ⟨host, hhost, by simp only [Bool.false_eq_true, if_false, List.append_nil]; rfl⟩

theorem typeByte_strikes (purpose : Purpose) (line : List UInt8) (hend : ¬ Byte.EndsLine b) :
    ∃ host, P host ∧
    typeByte purpose (s.interpreter.memory.entryStart + line.length) s =
      .ok (.edit purpose (s.interpreter.memory.entryStart +
        (strike s.interpreter.room line b).length))
        { s with
          interpreter := s.interpreter.withMemory (s.interpreter.memory.struck
            s.interpreter.room line b)
          host := ⟨host, s.host.written ++ answer s.interpreter.echo s.interpreter.room line b⟩
          } := by
  by_cases herase : Byte.Erases b
  · rw [Editor.strike_of_erases herase, Memory.struck_of_not fun h => h.1.not_erases herase]
    exact typeByte_erases hP hm hr hhost purpose line herase hend
  by_cases hcontrol : b < Byte.blank ∧ b ≠ Byte.tab
  · have htext : ¬ Byte.IsText b := fun h => h.unedited.2.2 hcontrol
    rw [typeByte_of_read purpose hm (Recorded.read_eq hr), if_neg hend, if_neg herase,
      if_pos hcontrol, Editor.strike_of_control herase htext,
      Editor.answer_of_control _ herase htext, Memory.struck_of_not fun h =>
        htext h.1, List.append_nil]
    exact ⟨host, hhost, rfl⟩
  have htext := Byte.isText_of_unedited herase hcontrol
  by_cases hroom : line.length < s.interpreter.room
  · rw [Editor.strike_of_room htext hroom, Editor.answer_of_room _ htext hroom,
      Memory.struck_of_room htext hroom]
    exact typeByte_inserts hP hm hr hhost purpose line htext hroom
  · have hle := Nat.not_lt.1 hroom
    have hfull : s.interpreter.entryEnd ≤ s.interpreter.memory.entryStart + line.length := by
      unfold Interpreter.room at hle
      omega
    obtain ⟨host', hP', hwrite⟩ := writes_writeByte hP Byte.bell { s with host :=
      ⟨host, s.host.written⟩ } hhost
    rw [typeByte_of_read purpose hm (Recorded.read_eq hr), if_neg hend, if_neg herase,
      if_neg hcontrol, if_pos hfull,
      Editor.strike_of_full htext hle, Editor.answer_of_full _ htext hle, Memory.struck_of_not
        fun h => hroom h.2]
    exact ⟨host', hP', bind_of_ok hwrite⟩

/-- The byte that ends a line puts a marker after it, and the line is taken. -/
theorem typeByte_ends (purpose : Purpose) (hb : Byte.EndsLine b)
    (hp : s.interpreter.memory.Typing pos) : ∃ host, P host ∧
    typeByte purpose pos s = takeFor purpose
      { s with interpreter := s.interpreter.withMemory (s.interpreter.memory.typed pos Byte.marker),
               host := ⟨host, s.host.written ++ if s.interpreter.echo then [Byte.marker] else []⟩
               } := by
  rw [typeByte_of_read purpose hm (Recorded.read_eq hr), if_pos hb]
  have hput (host : Recorded σ) : onMemory (Memory.write pos [Byte.marker]) { s with host } = .ok ()
      { s with interpreter := s.interpreter.withMemory (s.interpreter.memory.typed pos
        Byte.marker), host } :=
    onMemory_of_ok (hp.write_eq hm Byte.marker)
  cases hecho : s.interpreter.echo with
  | true =>
    obtain ⟨host', hP', hwrite⟩ := writes_newline hP { s with host := ⟨host, s.host.written⟩ } hhost
    exact ⟨host', hP', (bind_of_ok hwrite).trans (bind_of_ok (hput _))⟩
  | false =>
    refine ⟨host, hhost, ?_⟩
    simp only [Bool.false_eq_true, if_false, List.append_nil]
    exact bind_of_ok (hput _)

end

/-- While a line is typed its room and its place stay the same. -/
theorem typeByte_drafts (hP : WritesThrough P) {i : Interpreter} (hm : i.memory.Layout) {m : Memory}
    (honly : i.memory.OnlyEntry (i.memory.entryStart + i.room) m)
    (hs : s.interpreter = i.withMemory m) (hr : Host.read s.host.host = .ok b host) (hhost : P host)
    (purpose : Purpose) (line : List UInt8) (hend : ¬ Byte.EndsLine b) : ∃ host, P host ∧
    typeByte purpose (i.memory.entryStart + line.length) s =
      .ok (.edit purpose (i.memory.entryStart + (strike i.room line b).length))
        { s with
          interpreter := i.withMemory (m.struck i.room line b)
          host := ⟨host, s.host.written ++ answer i.echo i.room line b⟩ } := by
  have hlt := (Interpreter.typing_room hm).lt
  have hm' : s.interpreter.memory.Layout := hs ▸ (honly.onlyGap (by omega)).layout hm
  obtain ⟨host', hP', hstrike⟩ := typeByte_strikes hP hm' hr hhost purpose line hend
  have hroom : s.interpreter.room = i.room := hs ▸ Interpreter.room_withMemory honly
  have hstart : s.interpreter.memory.entryStart = i.memory.entryStart := hs ▸ honly.entryStart_eq
  rw [hroom, hstart, hs] at hstrike
  exact ⟨host', hP', hstrike⟩

theorem runs_keys {input : σ → ι} (hi : Deaf input) {after : ι} (purpose : Purpose)
    {i : Interpreter} (hm : i.memory.Layout) {keys : List UInt8}
    (hkeys : ∀ b ∈ keys, ¬ Byte.EndsLine b) {m : Memory}
    (honly : i.memory.OnlyEntry (i.memory.entryStart + i.room) m) (line : List UInt8)
    (hline : line.length ≤ i.room) {s : Session (Recorded σ)} (hs : s.interpreter = i.withMemory m)
    (hk : Supplies input after keys s.host.host) :
    ∃ host, input host = after ∧
      Runs (fun phase t => i.Enters purpose phase t.interpreter) keys.length
        (.edit purpose (i.memory.entryStart + line.length)) s
        (.edit purpose (i.memory.entryStart + (edit i.room line keys).length))
        { s with
          interpreter := i.withMemory (m.strikes i.room line keys)
          host := ⟨host, s.host.written ++ answers i.echo i.room line keys⟩ } := by
  -- On the keys, for every draft: the buffer before each key differs from the first one in the
  -- entry only.
  induction keys generalizing m line s with
  | nil =>
    refine ⟨s.host.host, hk, ?_⟩
    rw [answers, List.append_nil, ← show s.interpreter =
      i.withMemory (m.strikes i.room line []) from hs]
    exact .none _ s
  | cons b keys ih =>
    obtain ⟨next, hr, hk⟩ := hk
    obtain ⟨hb, hkeys⟩ := List.forall_mem_cons.1 hkeys
    obtain ⟨host, hhost, hstrike⟩ := typeByte_drafts (hi.writesThrough (input next)) hm honly hs hr
      rfl purpose line hb
    have htop := Interpreter.typing_room hm
    have hlt := htop.lt
    have hstruck := Memory.onlyEntry_struck ((honly.onlyGap (by omega)).layout hm)
      (honly.entryStart_eq ▸ honly.typing htop) hline b
    rw [honly.entryStart_eq] at hstruck
    obtain ⟨done, hdone, hrun⟩ := ih hkeys (honly.trans hstruck) (strike i.room line b)
      (Editor.length_strike_le hline)
      (s := { s with
        interpreter := i.withMemory (m.struck i.room line b)
        host := ⟨host, s.host.written ++ answer i.echo i.room line b⟩ }) rfl
          (hi.supplies hhost.symm hk)
    refine ⟨done, hdone, .step ⟨Or.inr ⟨_, rfl⟩, m, honly, hs⟩ hstrike ?_⟩
    rw [List.append_assoc] at hrun
    exact hrun

/-- Asking for a line and typing one leads to where the line is taken. -/
theorem runs_asked {input : σ → ι} (hi : Deaf input) (after : ι) (purpose : Purpose)
    (strokes : Keystrokes) {s : Session (Recorded σ)} (hm : s.interpreter.memory.Layout)
    (hk : Supplies input after strokes.bytes s.host.host) :
    ∃ pos t host, input host = after ∧
      Runs (fun phase t => s.interpreter.Enters purpose phase t.interpreter)
        (strokes.keys.length + 1) (.ask purpose) s
        (.edit purpose pos) t ∧ s.interpreter.Enters purpose (.edit purpose pos) t.interpreter ∧
      typeByte purpose pos t = takeFor purpose
        { s with
          interpreter := s.interpreter.withMemory (s.interpreter.memory.keyed s.interpreter.room
            strokes.keys)
          host := ⟨host, s.host.written ++
            purpose.sign :: Editor.echoed s.interpreter.echo s.interpreter.room strokes.keys⟩
            } := by
  obtain ⟨asked, hasked, hsign⟩ := writes_writeByte (hi.writesThrough (input s.host.host))
    purpose.sign s rfl
  obtain ⟨mid, hkeys, hlast⟩ := hi.supplies_append strokes.keys [strokes.last]
    (hi.supplies hasked.symm hk)
  have hself := Memory.OnlyEntry.refl s.interpreter.memory
    (s.interpreter.memory.entryStart + s.interpreter.room)
  have hask : ask purpose s = .ok (.edit purpose s.interpreter.memory.entryStart)
      { s with host := ⟨asked, s.host.written ++ [purpose.sign]⟩ } := bind_of_ok hsign
  obtain ⟨typed, htyped, hrun⟩ := runs_keys hi purpose hm strokes.unended hself []
    (show [].length ≤ _ from Nat.zero_le _)
    (s := { s with host := ⟨asked, s.host.written ++ [purpose.sign]⟩ }) rfl hkeys
  obtain ⟨next, hr, hafter⟩ := hlast typed htyped
  have htop := Interpreter.typing_room hm
  have honly := Memory.onlyEntry_strikes hm htop (show [].length ≤ _ from Nat.zero_le _)
    strokes.keys
  obtain ⟨hm', htyping⟩ := Memory.typing_strikes hm htop strokes.keys
  obtain ⟨done, hdone, hend⟩ := typeByte_ends
    (s := { s with
      interpreter := s.interpreter.withMemory (s.interpreter.memory.strikes s.interpreter.room []
        strokes.keys)
      host := ⟨typed, s.host.written ++ [purpose.sign] ++ answers s.interpreter.echo
        s.interpreter.room [] strokes.keys⟩ })
    (hi.writesThrough after) hm' hr hafter purpose strokes.ends htyping
  refine ⟨_, _, done, hdone, .step ⟨Or.inl rfl, _, hself, rfl⟩ hask hrun,
    ⟨Or.inr ⟨_, rfl⟩, _, honly, rfl⟩, hend.trans ?_⟩
  simp only [List.append_assoc, List.cons_append, Editor.echoed]
  rfl

theorem drive_asked {input : σ → ι} (hi : Deaf input) (after : ι) (call : Call) (purpose : Purpose)
    (strokes : Keystrokes) {s : Session (Recorded σ)} (hm : s.interpreter.memory.Layout)
    (hk : Supplies input after strokes.bytes s.host.host) : ∃ host, input host = after ∧ ∀ steps,
      drive call.atRest (steps + strokes.keys.length + 2) (.ask purpose) s =
        (takeFor purpose >>= drive call.atRest steps) { s with
          interpreter := s.interpreter.withMemory (s.interpreter.memory.keyed s.interpreter.room
            strokes.keys)
          host := ⟨host, s.host.written ++
            purpose.sign :: Editor.echoed s.interpreter.echo s.interpreter.room strokes.keys⟩
            } := by
  obtain ⟨pos, t, host, hhost, hrun, -, hend⟩ := runs_asked hi after purpose strokes hm hk
  refine ⟨host, hhost, fun steps => ?_⟩
  have hsteps : steps + strokes.keys.length + 2 = steps + 1 + (strokes.keys.length + 1) := by omega
  rw [hsteps, hrun.drive_eq (fun _ _ h => call.atRest_of_enters h), drive_succ_eq, call.atRest_edit]
  exact bind_of_eq hend

def Prompting : Phase → Prop
  | .ask .command | .edit .command _ => True
  | _ => False

def Unpending (phase : Phase) (i : Interpreter) : Prop :=
  Prompting phase → i.directText = none

theorem unpending_of_withinLine {phase : Phase} (h : phase.WithinLine) (i : Interpreter) :
    Unpending phase i := by
  cases phase with
  | ask purpose =>
    cases purpose with
    | command => exact absurd h id
    | reply => exact fun hp => absurd hp id
  | edit purpose pos =>
    cases purpose with
    | command => exact absurd h id
    | reply => exact fun hp => absurd hp id
  | _ => exact fun hp => absurd hp id

theorem accept_withinLine {τ : Type} [Host τ] {s : Session τ} {l : Listing} {frames : List Frame}
    (hs : s.interpreter.memory.Sane l frames) (ht : s.interpreter.memory.Typed line) :
    Ends (accept s) (fun phase _ => phase.WithinLine) fun h _ => ∃ e, h = .io e := by
  refine (accept_ends hs ht).mono (fun phase s' h => ?_) fun h s' hh => hh.1
  obtain ⟨-, rfl⟩ | ⟨-, rfl⟩ | ⟨-, -, rfl⟩ | ⟨-, -, rfl⟩ := h.1
  all_goals exact trivial

theorem step_unpending {τ : Type} [Host τ] {s : Session τ} {l : Listing} {frames : List Frame}
    {phase : Phase} (hs : s.interpreter.Ready l frames phase) (h : Unpending phase s.interpreter) :
    Ends (step phase s) (fun phase' s' => Unpending phase' s'.interpreter) fun _ _ => True := by
  have hwithin {r : EStateM.Result Halt (Session τ) Phase}
    (hr : Ends r (fun phase' _ => phase'.WithinLine) fun _ _ => True) :
      Ends r (fun phase' s' => Unpending phase' s'.interpreter) fun _ _ => True :=
    hr.mono (fun _ _ hw => unpending_of_withinLine hw _) fun _ _ h => h
  cases phase with
  | cold =>
    have hgreet : StaysWithin (greet : Act τ Phase) := .bind fun _ => .bind fun _ => .bind fun _ =>
      leadsInto_pure trivial
    exact hwithin (hgreet s)
  | prompt => exact Ends.of_ok rfl fun _ => rfl
  | bye => exact Ends.of_ok rfl h
  | restart | direct | line | poll | execute | proceed | nextLine =>
    exact hwithin (step_withinLine hs trivial rfl)
  | ask purpose =>
    cases purpose with
    | reply v resume => exact hwithin (step_withinLine hs trivial rfl)
    | command =>
      refine Ends.bind ((talks_writeByte _ s hs.sane.layout).mono (fun _ _ h => h)
        fun _ _ _ => trivial) fun _ s' hi => ?_
      refine Ends.of_ok rfl fun _ => ?_
      rw [hi]
      exact h trivial
  | edit purpose pos =>
    cases purpose with
    | reply v resume => exact hwithin (step_withinLine hs trivial rfl)
    | command =>
      obtain ⟨hasking, hp⟩ := hs
      have hm := hasking.sane.layout
      have htakes : Takes (· = s.interpreter) Unpending (fun _ => True)
          (typeByte .command pos : Act τ Phase) := by
        refine takes_typeByte_of hm hp (fun j _ hj _ _ _ => ?_) (fun _ _ => trivial) fun t ht => ?_
        · obtain rfl | ⟨b, rfl⟩ := hj
          · exact h trivial
          · exact h trivial
        · -- The line that has ended is taken, and no command is asked for before that.
          have hmarked : t.interpreter.Asking l frames .command := ht ▸ hasking.typed hp Byte.marker
          have htyped : t.interpreter.memory.Typed (Cursor.rest
              ⟨t.interpreter.memory.ram, t.interpreter.memory.entryStart⟩) :=
                ht ▸ hp.typed_marker hm
          exact (accept_withinLine hmarked.sane htyped).mono
            (fun _ _ hw => unpending_of_withinLine hw _) fun _ _ hh =>
            ⟨hh, trivial⟩
      exact (htakes s rfl).mono (fun _ _ h => h) fun _ _ _ => trivial

end Session

theorem History.directText_eq_none [Host σ] {settings : Settings} {first : σ}
    {threshold : Option Severity} {past : List (Moment σ)} {call : Call} {phase : Phase}
    {s : Session σ} (h : History (Session.start settings first threshold) past (.busy call phase s))
    (hp : Session.Prompting phase) :
    s.interpreter.directText = none := by
  generalize hM : Moment.busy call phase s = M at h
  induction h generalizing call phase s with
  | start => cases hM
  | @next past M M' h hn ih =>
    obtain ⟨l, frames, hready⟩ := h.exists_ready
    cases hn with
    | host | refuse | stop | rest => cases hM
    | serve =>
      cases hM
      exact absurd hp id
    | @enter s' t line phase' hrun =>
      cases hM
      have hs : s'.interpreter.memory.Sane l frames := hready
      have hends := Session.submit_ends line hs
      rw [hrun] at hends
      obtain ⟨⟨-, rfl⟩ | ⟨-, rfl⟩ | ⟨-, -, rfl⟩ | ⟨-, -, rfl⟩, -⟩ := hends
      all_goals exact absurd hp id
    | @step s' t call' phase' phase'' _ hrun =>
      cases hM
      have hends := Session.step_unpending hready fun hp' => ih hp' rfl
      rw [hrun] at hends
      exact hends hp

/-- There is a place for the marker of the line that is typed, below the direct line that is
pending. -/
theorem History.entryStart_le [Host σ] {settings : Settings} {first : σ}
    {threshold : Option Severity} {past : List (Moment σ)} {call : Call} {purpose : Purpose}
    {s : Session σ}
    (h : History (Session.start settings first threshold) past (.busy call (.ask purpose) s)) :
    s.interpreter.memory.entryStart ≤ s.interpreter.entryEnd := by
  obtain ⟨l, frames, hready⟩ := h.exists_ready
  have hm : s.interpreter.memory.Layout := hready.sane.layout
  have hreserve := hm.reserve
  unfold Interpreter.entryEnd
  cases purpose with
  | command =>
    rw [h.directText_eq_none trivial]
    simp only [Memory.entryStart, Memory.entryHeadroom]
    omega
  | reply v resume =>
    obtain ⟨d, -, -, -, -, -, hu, -⟩ := h.lineSince trivial
    have hlt := hu.lt
    rw [hu.directText_eq]
    simp only [Memory.entryStart, Memory.entryHeadroom] at *
    omega

/-- What typing a line leaves and shows: the line as the reference editor has it stands with its
marker where lines are typed, nothing else has changed in the buffer but what was typed over there,
and the terminal shows the sign that asked for the line, the line and its end. -/
structure Interpreter.Receives (i : Interpreter) (sign : UInt8) (keys : List UInt8) (m : Memory)
    (output : List UInt8) :
    Prop where
  stands : Memory.Stands m.ram i.memory.entryStart (edit i.room [] keys ++ [Byte.marker])
  rest_eq : Cursor.rest ⟨m.ram, i.memory.entryStart⟩ = edit i.room [] keys
  changes : i.memory.OnlyEntry i.entryEnd m
  shows : i.echo = true → Terminal.render [] output = sign :: (edit i.room [] keys ++ [Byte.marker])

/-- Whatever line is typed, it is taken with the text that the reference editor makes of it, and
what has been written shows that text. -/
theorem History.line_edited [Host σ] [Host τ] {settings : Settings} {first : σ}
    {threshold : Option Severity} {past : List (Moment σ)} {call : Call} {purpose : Purpose}
    {s : Session σ}
    (h : History (Session.start settings first threshold) past (.busy call (.ask purpose) s))
    {input : τ → ι} (hi : Deaf input) {after : ι} (strokes : Keystrokes) {typist : τ}
    (hk : Supplies input after strokes.bytes typist) :
    ∃ m host output, s.interpreter.Receives purpose.sign strokes.keys m output ∧
    input host = after ∧ ∀ steps,
      Session.drive call.atRest (steps + strokes.keys.length + 2) (.ask purpose)
        (s.on (Recorded.mk typist [])) =
        (Session.takeFor purpose >>= Session.drive call.atRest steps)
          ({ s with interpreter := s.interpreter.withMemory m }.on (Recorded.mk host output)) := by
  obtain ⟨l, frames, hready⟩ := h.exists_ready
  have hm : s.interpreter.memory.Layout := hready.sane.layout
  have htop := Interpreter.typing_room hm
  have hend : s.interpreter.memory.entryStart + s.interpreter.room = s.interpreter.entryEnd :=
    Nat.add_sub_cancel' h.entryStart_le
  obtain ⟨host, hhost, hdrive⟩ := Session.drive_asked (s := s.on (Recorded.mk typist [])) hi after
    call purpose strokes hm hk
  have hstands := Memory.stands_keyed hm htop strokes.keys
  refine ⟨_, host, _, ⟨hstands, ?_, ?_, fun hecho => ?_⟩, hhost, hdrive⟩
  · exact Cursor.rest_of_stands hstands (Editor.marker_notMem_edit _ _)
  · rw [← hend]
    exact Memory.onlyEntry_keyed hm htop strokes.keys
  · show Terminal.render [] (purpose.sign :: Editor.echoed s.interpreter.echo s.interpreter.room
      strokes.keys) = _
    rw [hecho, Terminal.render_echoed purpose]

/-- The variable that the `INPUT` at the position asks for, and where it goes on, if that is a
statement of its own. -/
def Interpreter.inputs? (i : Interpreter) : Option (Variable × Nat) :=
  match i.cursor.token Keyword.vocabulary with
  | (some .input, c) =>
    match c.named? with
    | some (some v, after) => some (v, after.pos)
    | _ => none
  | _ => none

set_option linter.constructorNameAsVariable false in
/-- A direct line comes to a statement that asks for a reply. -/
theorem History.exists_input : ∃ (past : List (Moment Script)) (s s' : Session Script),
    History (Session.start { ramSize := 1024 } {} none) past (.busy .enter .execute s) ∧
      Session.step .execute s = .ok (.ask (.reply ⟨0⟩ 921)) s' ∧
      s.interpreter.inputs? = some (⟨0⟩, 921) ∧
      s'.interpreter.echo = true ∧ s'.interpreter.room = 252 := by
  have hrun : Ends (Session.enter 2 (ascii "INPUT A")
    (Session.start { ramSize := 1024 } ({} : Script) none))
      (fun phase s => phase = .execute ∧ s.interpreter.inputs? = some (⟨0⟩, 921) ∧
        Ends (Session.step .execute s)
          (fun phase s' => phase = .ask (.reply ⟨0⟩ 921) ∧ s'.interpreter.echo = true ∧
            s'.interpreter.room = 252)
          fun _ _ => False)
      fun _ _ => False := by
    decide +kernel
  obtain ⟨_, s, hs, rfl, hinputs, hstep⟩ := hrun.exists_ok
  obtain ⟨_, s', hs', rfl, hecho, hroom⟩ := hstep.exists_ok
  obtain ⟨past, hexecute⟩ := History.start.enter_of_ok hs
  exact ⟨past, s, s', hexecute, hs', hinputs, hecho, hroom⟩

/-- A reply is typed over twice and corrected. -/
theorem History.line_edited_reply :
    ∃ s : Session Script, s.interpreter.echo = true ∧ ∃ m host output,
    s.interpreter.Receives (byte '?') [Byte.tab, Byte.delete, Byte.delete, byte 'a', 1,
      Byte.backspace, byte '7'] m output ∧
      edit s.interpreter.room [] [Byte.tab, Byte.delete, Byte.delete, byte 'a', 1, Byte.backspace,
        byte '7'] = ascii "7" ∧
      Script.input host = [] ∧ ∀ steps,
      Session.drive Phase.awaitsCommand (steps + 9) (.ask (.reply ⟨0⟩ 921)) (s.on (Recorded.mk
          { input := [Byte.tab, Byte.delete, Byte.delete, byte 'a', 1, Byte.backspace, byte '7',
            Byte.carriageReturn] } [])) =
        (Session.takeReply ⟨0⟩ 921 >>= Session.drive Phase.awaitsCommand steps)
          ({ s with interpreter := s.interpreter.withMemory m }.on (Recorded.mk host output)) := by
  obtain ⟨past, s₀, s, hexecute, hstep, -, hecho, hroom⟩ := History.exists_input
  have hasked := hexecute.next (.step rfl hstep)
  let strokes : Keystrokes :=
    ⟨[Byte.tab, Byte.delete, Byte.delete, byte 'a', 1, Byte.backspace, byte '7'],
    Byte.carriageReturn, by decide, by decide⟩
  obtain ⟨m, host, output, hreceives, hhost, hdrive⟩ := hasked.line_edited Script.deaf strokes
    (Script.supplies strokes.bytes [] #[])
  refine ⟨s, hecho, m, host, output, hreceives, ?_, hhost, hdrive⟩
  rw [hroom]
  decide

end LineBasic
