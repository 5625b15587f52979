import LineBasic.Proofs.Cursor
import LineBasic.Proofs.Memory.Insertion
import LineBasic.Proofs.Memory.Sound
import LineBasic.Proofs.Text
import Mathlib.Data.List.TakeWhile

namespace LineBasic

/-- A line that stands in a text with its marker ends where the marker is. -/
theorem endOfLine_of_stands {ram : Array UInt8} {start : Nat} {line : List UInt8}
    (h : Memory.Stands ram start (line ++ [Byte.marker])) (hm : Byte.marker ∉ line) :
    endOfLine ram start = start + line.length := by
  obtain ⟨hline, hend⟩ := Memory.stands_append.1 h
  refine endOfLine_eq (Nat.le_add_right _ _) (fun k hlo hhi => ?_) ?_
  · have hlt : k - start < line.length := by omega
    have hbyte := hline (k - start) hlt
    rw [show start + (k - start) = k by omega, List.getElem?_eq_getElem hlt] at hbyte
    rw [Array.getD_eq_getD_getElem?, hbyte]
    exact fun he => hm (he ▸ List.getElem_mem hlt)
  · rw [Array.getD_eq_getD_getElem?, (Memory.stands_cons.1 hend).1]
    rfl

theorem Cursor.rest_of_stands {ram : Array UInt8} {start : Nat} {line : List UInt8}
    (h : Memory.Stands ram start (line ++ [Byte.marker])) (hm : Byte.marker ∉ line) :
    Cursor.rest ⟨ram, start⟩ = line := by
  have hsize := h.le_size (by simp)
  rw [List.length_append, List.length_singleton] at hsize
  have he := endOfLine_of_stands h hm
  exact (Memory.stands_append.1 h).1.extract_eq he (by show endOfLine ram start ≤ _; omega)

/-- The number that a typed line begins with, 0 if it begins with none. -/
def entryNumber (line : List UInt8) : UInt16 :=
  (Lexeme.lineNumber (Case.fold line)).1

def entryText (line : List UInt8) : List UInt8 :=
  Lexeme.skipBlanks (Lexeme.lineNumber (Case.fold line)).2

theorem entryText_suffix (line : List UInt8) : entryText line <:+ Case.fold line :=
  (Lexeme.skipBlanks_suffix _).trans (Lexeme.lineNumber_suffix _)

namespace Memory
variable {m m' m'' : Memory} {l : Listing} {frames : List Frame} {line : List UInt8}

structure OnlyGap (m m' : Memory) : Prop extends SameRegions m m' where
  stackTop_eq : m'.stackTop = m.stackTop
  below : Agree m.ram m'.ram 0 m.programEnd
  above : Agree m.ram m'.ram m.variablesBegin m.size

theorem OnlyGap.refl (m : Memory) : m.OnlyGap m :=
  ⟨⟨rfl, rfl, rfl, rfl⟩, rfl, fun _ _ _ => rfl, fun _ _ _ => rfl⟩

theorem OnlyGap.trans (h : m.OnlyGap m') (h' : m'.OnlyGap m'') : m.OnlyGap m'' := by
  refine ⟨⟨h'.size_eq.trans h.size_eq, h'.programEnd_eq.trans h.programEnd_eq,
    h'.variablesBegin_eq.trans h.variablesBegin_eq, h'.stackLimit_eq.trans h.stackLimit_eq⟩,
    h'.stackTop_eq.trans h.stackTop_eq, h.below.trans ?_, h.above.trans ?_⟩
  · have := h'.below
    rwa [h.programEnd_eq] at this
  · have := h'.above
    rwa [h.variablesBegin_eq, h.size_eq] at this

theorem onlyGap_overwrite {start : Nat} {bytes : List UInt8} (hlo : m.programEnd ≤ start)
    (hhi : start + bytes.length ≤ m.variablesBegin) (hv : m.variablesBegin ≤ m.size) :
    m.OnlyGap { m with ram := overwrite m.ram start bytes } := by
  have hfits : start + bytes.length ≤ m.ram.size := Nat.le_trans hhi hv
  exact ⟨⟨size_overwrite _ _ _, rfl, rfl, rfl⟩, rfl, agree_overwrite_below hfits hlo,
    agree_overwrite_above hfits hhi⟩

/-- A text stands in the buffer with the marker that ends it. -/
theorem stands_rest {ram : Array UInt8} {start : Nat} (h : endOfLine ram start < ram.size) :
    Stands ram start (Cursor.rest ⟨ram, start⟩ ++ [Byte.marker]) := by
  have hend := Cursor.pos_add_length_rest ⟨ram, start⟩
  have hmarker := getD_endOfLine ram start
  rw [Array.getD_eq_getD_getElem?, Array.getElem?_eq_getElem h] at hmarker
  refine stands_append.2 ⟨stands_extract, stands_cons.2 ⟨?_, stands_nil _ _⟩⟩
  rw [hend, Array.getElem?_eq_getElem h]
  exact congrArg some hmarker

theorem Sound.onlyGap (h : m.Sound l frames) (hg : m.OnlyGap m') : m'.Sound l frames := by
  have := h.layout.variables_add
  have := h.layout.limit_le
  exact h.congr hg.toSameRegions hg.stackTop_eq hg.below (hg.above.mono (by omega) (Nat.le_refl _))

theorem OnlyGap.layout (hg : m.OnlyGap m') (hm : m.Layout) : m'.Layout :=
  hm.congr hg.toSameRegions (hg.stackTop_eq ▸ hm.limit_le) (hg.stackTop_eq ▸ hm.top_le)

structure Typed (m : Memory) (line : List UInt8) : Prop where
  marker_notMem : Byte.marker ∉ line
  length_le : line.length ≤ 252
  room : m.entryStart + line.length + 2 ≤ m.variablesBegin
  stands : Stands m.ram m.entryStart (line ++ [Byte.marker])

/-- The buffer with the typed line upper-cased. -/
def folded (m : Memory) (line : List UInt8) : Memory :=
  { m with ram := overwrite m.ram m.entryStart (Case.fold line) }

/-- Where a line is staged. -/
def stagingStart (m : Memory) (line : List UInt8) : Nat :=
  m.variablesBegin - (line.length + 1)

/-- The buffer with a line and its marker up against the variables. -/
def staged (m : Memory) (line : List UInt8) : Memory :=
  { m with ram := overwrite m.ram (m.stagingStart line) (line ++ [Byte.marker]) }

section
variable (h : m.programEnd + line.length + 1 ≤ m.variablesBegin)
include h

theorem stagingStart_add : m.stagingStart line + line.length + 1 = m.variablesBegin := by
  simp only [stagingStart]
  omega

theorem onlyGap_staged (hm : m.Layout) : m.OnlyGap (m.staged line) := by
  have hadd := stagingStart_add h
  have hv := hm.variables_le_size
  have hlength : (line ++ [Byte.marker]).length = line.length + 1 := by simp
  exact onlyGap_overwrite (by omega) (by omega) (by omega)

theorem stands_staged (hm : m.Layout) :
    Stands (m.staged line).ram (m.stagingStart line) (line ++ [Byte.marker]) := by
  have hadd := stagingStart_add h
  have hv : m.variablesBegin + 52 ≤ m.ram.size := hm.variables_le_size
  have hlength : (line ++ [Byte.marker]).length = line.length + 1 := by simp
  exact stands_overwrite (by omega)

theorem staged_marked :
    ({ m.staged line with ram := overwrite (m.staged line).ram (m.variablesBegin - 1) [Byte.marker]
      } : Memory) =
      m.staged line := by
  have hadd := stagingStart_add h
  simp only [staged]
  rw [show m.variablesBegin - 1 = m.stagingStart line + line.length by omega, overwrite_append,
    overwrite_twice]

end

namespace Typed

theorem le_size (h : m.Typed line) (hm : m.Layout) :
    m.entryStart + line.length + 2 ≤ m.ram.size := by
  have := h.room
  have := hm.variables_le_size
  show _ ≤ m.size
  omega

theorem foldCase_eq (h : m.Typed line) (hm : m.Layout) :
    foldCase m.entryStart m = .ok () (m.folded line) := by
  have hroom := h.room
  have hsize := h.le_size hm
  have hend := endOfLine_of_stands h.stands h.marker_notMem
  have hslice : (do
      discard <| difference m.variablesBegin m.entryStart
      m.slice m.entryStart (min (endOfLine m.ram m.entryStart) m.variablesBegin) : Except Fault _) =
        .ok line := by
    rw [difference_of_le (by omega), hend, Nat.min_eq_left (by omega)]
    refine (slice_eq m (Nat.le_add_right _ _) (by show _ ≤ m.ram.size; omega)).trans ?_
    rw [(stands_append.1 h.stands).1.extract_eq rfl (by omega)]
  unfold foldCase
  rw [bind_of_ok (reading_of_ok hslice)]
  exact write_eq (by rw [Case.length_fold]; show _ ≤ m.ram.size; omega)

theorem folded (h : m.Typed line) (hm : m.Layout) : (m.folded line).Typed (Case.fold line) := by
  have hroom := h.room
  have hsize := h.le_size hm
  have hlength := Case.length_fold line
  have hfits : m.entryStart + (Case.fold line).length ≤ m.ram.size := by omega
  refine ⟨Case.marker_notMem_fold h.marker_notMem, hlength ▸ h.length_le, ?_, ?_⟩
  · rw [hlength]
    exact hroom
  · refine stands_append.2 ⟨stands_overwrite hfits, ?_⟩
    rw [hlength]
    exact (stands_append.1 h.stands).2.congr (agree_overwrite_above hfits
      (Nat.le_of_eq (congrArg _ hlength)))

theorem onlyGap_folded (h : m.Typed line) (hm : m.Layout) : m.OnlyGap (m.folded line) := by
  have hroom := h.room
  have := hm.variables_le_size
  exact onlyGap_overwrite (Nat.le_add_right _ _) (by rw [Case.length_fold]; omega) (by omega)

theorem programEnd_add_le (h : m.Typed line) :
    m.programEnd + line.length + 4 ≤ m.variablesBegin := by
  have hroom := h.room
  simp only [entryStart, entryHeadroom] at hroom
  omega

theorem stagingStart_add (h : m.Typed line) :
    m.stagingStart line + line.length + 1 = m.variablesBegin := by
  have hfits := h.programEnd_add_le
  exact Memory.stagingStart_add (by omega)

theorem stage_eq (h : m.Typed line) (hm : m.Layout) :
    stage m.entryStart m = .ok (m.stagingStart line) (m.staged line) := by
  have hroom := h.room
  have hsize := h.le_size hm
  have hfits := h.programEnd_add_le
  have hadd := h.stagingStart_add
  have hvariables := hm.variables_le_size
  have hend := endOfLine_of_stands h.stands h.marker_notMem
  have hlength : (line ++ [Byte.marker]).length = line.length + 1 := by simp
  have hslice : (do
      discard <| difference m.variablesBegin m.entryStart
      m.slice m.entryStart (min (endOfLine m.ram m.entryStart + 1) m.variablesBegin) :
        Except Fault _) =
        .ok (line ++ [Byte.marker]) := by
    rw [difference_of_le (by omega), hend, Nat.min_eq_left (by omega)]
    refine (slice_eq m (by omega) (by show _ ≤ m.ram.size; omega)).trans ?_
    rw [h.stands.extract_eq (by rw [hlength]; omega) (by omega)]
  have hwrite : write (m.stagingStart line) (line ++ [Byte.marker]) m = .ok () (m.staged line) :=
    write_eq (by rw [hlength]; omega)
  have hagain : write (m.variablesBegin - 1) [Byte.marker] (m.staged line) = .ok ()
      (m.staged line) := by
    rw [write_eq, staged_marked (by omega)]
    show m.variablesBegin - 1 + 1 ≤ (overwrite _ _ _).size
    rw [size_overwrite]
    show _ ≤ m.size
    omega
  unfold stage
  rw [bind_of_ok (show (get : Update Memory) m = .ok m m from rfl),
    bind_of_ok (reading_of_ok hslice), hlength,
    bind_of_ok
      (reading_of_ok (difference_of_le (show line.length + 1 ≤ m.variablesBegin by omega)))]
  refine (bind_of_ok hwrite).trans ?_
  refine (bind_of_ok (reading_of_ok (difference_of_le (show 1 ≤ m.variablesBegin by omega)))).trans
    ?_
  exact bind_of_ok hagain

end Typed

def taken (m : Memory) (line : List UInt8) : Memory :=
  (m.folded line).staged (Case.fold line)

theorem stagingStart_folded :
    (m.folded line).stagingStart (Case.fold line) = m.stagingStart line := by
  simp only [stagingStart, Case.length_fold]
  rfl

def bodyStart (m : Memory) (line : List UInt8) : Nat :=
  m.variablesBegin - 1 - (entryText line).length

theorem stagingStart_le_bodyStart (m : Memory) (line : List UInt8) :
    m.stagingStart line ≤ m.bodyStart line := by
  have htext := (entryText_suffix line).length_le
  have hlength := Case.length_fold line
  simp only [stagingStart, bodyStart]
  omega

theorem Typed.length_entryText_le (h : m.Typed line) :
    m.programEnd + (entryText line).length + 4 ≤ m.variablesBegin := by
  have := h.programEnd_add_le
  have := (entryText_suffix line).length_le
  have := Case.length_fold line
  omega

theorem Typed.onlyGap_taken (h : m.Typed line) (hm : m.Layout) : m.OnlyGap (m.taken line) := by
  have hfolded := h.onlyGap_folded hm
  have hfits := (h.folded hm).programEnd_add_le
  exact hfolded.trans (onlyGap_staged (by omega) (hfolded.layout hm))

theorem Typed.stands_taken (h : m.Typed line) (hm : m.Layout) :
    Stands (m.taken line).ram (m.stagingStart line) (Case.fold line ++ [Byte.marker]) := by
  have hfolded := h.onlyGap_folded hm
  have hfits := (h.folded hm).programEnd_add_le
  rw [← stagingStart_folded]
  exact stands_staged (by omega) (hfolded.layout hm)

/-- The marker of a staged line is the last byte below the variables. -/
theorem Typed.last_taken (h : m.Typed line) (hm : m.Layout) :
    (m.taken line).ram[m.variablesBegin - 1]? = some Byte.marker := by
  have hadd := h.stagingStart_add
  have hend := (stands_cons.1 (stands_append.1 (h.stands_taken hm)).2).1
  rwa [Case.length_fold, show m.stagingStart line + line.length =
    m.variablesBegin - 1 by omega] at hend

theorem Typed.atEndOfLine_taken (h : m.Typed line) (hm : m.Layout) (ht : entryText line = []) :
    Cursor.atEndOfLine ⟨(m.taken line).ram, m.bodyStart line⟩ = true := by
  have hlast := h.last_taken hm
  refine decide_eq_true ?_
  show (m.taken line).ram.getD (m.variablesBegin - 1 - (entryText line).length)
    Byte.marker = Byte.marker
  rw [ht, List.length_nil, Nat.sub_zero, Array.getD_eq_getD_getElem?, hlast]
  rfl

/-- The number and the text of a staged line are found in it. -/
theorem Typed.lineNumber_taken (h : m.Typed line) (hm : m.Layout) :
    (Cursor.lineNumber ⟨(m.taken line).ram, m.stagingStart line⟩).1 = entryNumber line ∧
      (Cursor.lineNumber ⟨(m.taken line).ram, m.stagingStart line⟩).2.skipBlanks.pos =
        m.bodyStart line := by
  have hstands := h.stands_taken hm
  have hmarker := Case.marker_notMem_fold h.marker_notMem
  have hrest := Cursor.rest_of_stands hstands hmarker
  have hend := endOfLine_of_stands hstands hmarker
  have hadd := h.stagingStart_add
  refine ⟨congrArg (fun text => (Lexeme.lineNumber text).1) hrest, ?_⟩
  generalize hc : (Cursor.mk (m.taken line).ram (m.stagingStart line)) = c at *
  have hnumber : c.lineNumber.2.rest = (Lexeme.lineNumber c.rest).2 :=
    c.rest_moveTo (Lexeme.lineNumber_suffix _)
  have hbody : c.lineNumber.2.skipBlanks.rest = entryText line := by
    have := c.lineNumber.2.rest_moveTo (Lexeme.skipBlanks_suffix _)
    rw [hnumber, hrest] at this
    rw [Cursor.skipBlanks, hnumber, hrest]
    exact this
  have hwithin := c.lineNumber_within.trans (Cursor.skipBlanks_within _)
  -- The position follows from what is left of the line, as both cursors end where the staged line
  -- ends.
  have hpos := c.lineNumber.2.skipBlanks.pos_add_length_rest
  rw [hbody, hwithin.text_eq, endOfLine_eq_of_le hwithin.le hwithin.le_end] at hpos
  have hend' : endOfLine c.text c.pos = m.stagingStart line + (Case.fold line).length := by
    rw [← hc]
    exact hend
  rw [hend', Case.length_fold] at hpos
  simp only [bodyStart]
  omega

/-- A typed line with a number between the least and the largest is ready to be merged. -/
theorem Typed.staged_taken (h : m.Typed line) (hm : m.Layout) (hz : entryNumber line ≠ 0)
    (hmax : entryNumber line ≠ 65535) :
    Staged (m.taken line) (entryNumber line) (entryText line) (m.bodyStart line) := by
  have hstands := h.stands_taken hm
  have hfits := h.programEnd_add_le
  have hlength := h.length_le
  have hfold := Case.length_fold line
  have hdigit := Lexeme.length_lineNumber_lt hz
  have hblanks := (Lexeme.skipBlanks_suffix (Lexeme.lineNumber (Case.fold line)).2).length_le
  have htext : (entryText line).length < line.length := by
    rw [entryText]
    omega
  have hmarker : Byte.marker ∉ entryText line := fun hn =>
    Case.marker_notMem_fold h.marker_notMem ((entryText_suffix line).subset hn)
  refine ⟨⟨hz, hmax, hmarker, by omega⟩, ?_, ?_, ?_⟩
  · show m.programEnd + 4 ≤ m.variablesBegin - 1 - _
    omega
  · show m.variablesBegin - 1 - _ + _ + 1 = m.variablesBegin
    omega
  · obtain ⟨front, hfront⟩ := entryText_suffix line
    have hparts : front.length + (entryText line).length = line.length := by
      rw [← List.length_append, hfront, hfold]
    have hadd := h.stagingStart_add
    rw [← hfront, List.append_assoc] at hstands
    have hbody := (stands_append.1 hstands).2
    rwa [show m.stagingStart line + front.length =
      m.bodyStart line by simp only [bodyStart]; omega] at hbody

/-- What a line keeps of some bytes when they are typed at the prompt: those before the first byte
that ends a line, as many as there is room for. -/
def cutLine (m : Memory) (bytes : List UInt8) : List UInt8 :=
  (bytes.takeWhile fun b => b != Byte.carriageReturn && b != Byte.marker).take
    (min (m.variablesBegin - entryHeadroom) (m.entryStart + 252) - m.entryStart)

def placed (m : Memory) (line : List UInt8) : Memory :=
  { m with ram := overwrite m.ram m.entryStart (line ++ [Byte.marker]) }

section
variable (bytes : List UInt8)

theorem marker_notMem_cutLine (m : Memory) : Byte.marker ∉ m.cutLine bytes := by
  intro hm
  have := List.all_eq_true.1 List.all_takeWhile _ (List.mem_of_mem_take hm)
  simp at this

theorem length_cutLine (hm : m.Layout) :
    m.entryStart + (m.cutLine bytes).length + 2 ≤ m.variablesBegin ∧
    (m.cutLine bytes).length ≤ 252 := by
  have := hm.reserve
  have hlen : (m.cutLine bytes).length ≤
      min (m.variablesBegin - entryHeadroom) (m.entryStart + 252) - m.entryStart :=
    List.length_take_le _ _
  simp only [entryStart, entryHeadroom] at *
  omega

/-- The bytes of a typed line that there is room for. -/
def entryRoom (m : Memory) : Nat :=
  min (m.variablesBegin - entryHeadroom) (m.entryStart + 252) - m.entryStart

theorem entryRoom_eq (hm : m.Layout) :
    m.entryRoom = min (m.variablesBegin - m.programEnd - 4) 252 := by
  have hreserve := hm.reserve
  simp only [entryRoom, entryStart, entryHeadroom]
  omega

/-- A line is cut to the room that there is for it. -/
theorem cutLine_eq (m : Memory) {bytes : List UInt8}
    (h : ∀ b ∈ bytes, b ≠ Byte.carriageReturn ∧ b ≠ Byte.marker) :
    m.cutLine bytes = bytes.take m.entryRoom := by
  have hall : bytes.takeWhile (fun b => b != Byte.carriageReturn && b != Byte.marker) = bytes :=
    List.takeWhile_eq_self_iff.2 fun b hb => by simp [h b hb]
  rw [cutLine, hall]
  rfl

theorem placeEntry_eq (hm : m.Layout) :
    placeEntry (m.cutLine bytes) m = .ok () (m.placed (m.cutLine bytes)) := by
  obtain ⟨hroom, -⟩ := length_cutLine bytes hm
  have hv : m.variablesBegin + 52 ≤ m.ram.size := hm.variables_le_size
  have hfirst : write m.entryStart (m.cutLine bytes) m = _ :=
    write_eq (by show _ ≤ m.ram.size; omega)
  have hsecond : write (m.entryStart + (m.cutLine bytes).length) [Byte.marker]
      { m with ram := overwrite m.ram m.entryStart (m.cutLine bytes) } = .ok ()
        (m.placed (m.cutLine bytes)) := by
    rw [write_eq, placed, overwrite_append]
    show m.entryStart + (m.cutLine bytes).length + 1 ≤ (overwrite _ _ _).size
    rw [size_overwrite]
    omega
  unfold placeEntry
  rw [bind_of_ok (show (get : Update Memory) m = .ok m m from rfl)]
  have hdifference : (discard <| reading fun m' => difference m'.variablesBegin
      (m.entryStart + (m.cutLine bytes).length)) m = .ok () m := by
    have hread := reading_of_ok (m := m) (f := fun m' => difference m'.variablesBegin
      (m.entryStart + (m.cutLine bytes).length)) (difference_of_le (by omega))
    simp only [discard, Functor.mapConst, Function.comp_apply, EStateM.map, hread]
  rw [bind_of_ok hdifference]
  exact (bind_of_ok hfirst).trans hsecond

theorem typed_placed (hm : m.Layout) : (m.placed (m.cutLine bytes)).Typed (m.cutLine bytes) := by
  obtain ⟨hroom, hlength⟩ := length_cutLine bytes hm
  have hv : m.variablesBegin + 52 ≤ m.ram.size := hm.variables_le_size
  refine ⟨marker_notMem_cutLine bytes m, hlength, hroom, stands_overwrite ?_⟩
  rw [List.length_append, List.length_singleton]
  show m.entryStart + _ ≤ _
  omega

theorem onlyGap_placed (hm : m.Layout) : m.OnlyGap (m.placed (m.cutLine bytes)) := by
  obtain ⟨hroom, -⟩ := length_cutLine bytes hm
  have hv := hm.variables_le_size
  refine onlyGap_overwrite (Nat.le_add_right _ _) ?_ (by omega)
  rw [List.length_append, List.length_singleton]
  omega

end

end Memory
end LineBasic
