import LineBasic.Line
import LineBasic.Memory.Word

namespace LineBasic

/-- The record of a line: its number, the length of the record, the text and the marker. -/
def Line.record (line : Line) : List UInt8 :=
  wordBytes line.number ++ UInt8.ofNat (line.text.length + 4) :: line.text ++ [Byte.marker]

/-- A number and a text that a line can have; an empty text stands for no line. -/
structure Storable (number : UInt16) (text : List UInt8) : Prop where
  number_ne_zero : number ≠ 0
  number_ne_max : number ≠ 65535
  marker_notMem : Byte.marker ∉ text
  length_le : text.length ≤ 251

instance (number : UInt16) (text : List UInt8) : Decidable (Storable number text) :=
  decidable_of_iff (number ≠ 0 ∧ number ≠ 65535 ∧ Byte.marker ∉ text ∧ text.length ≤ 251)
    ⟨fun ⟨hz, hm, hn, hl⟩ => ⟨hz, hm, hn, hl⟩, fun ⟨hz, hm, hn, hl⟩ => ⟨hz, hm, hn, hl⟩⟩

theorem Line.length_record (line : Line) : line.record.length = line.text.length + 4 := by
  simp [Line.record, wordBytes]

def records (lines : List Line) : List UInt8 :=
  lines.flatMap Line.record

theorem records_append (front back : List Line) :
    records (front ++ back) = records front ++ records back :=
  List.flatMap_append

theorem records_cons (line : Line) (rest : List Line) :
    records (line :: rest) = line.record ++ records rest :=
  List.flatMap_cons

/-- The bytes that the records of some lines take. -/
def extent : List Line → Nat
  | [] => 0
  | line :: rest => line.text.length + 4 + extent rest

theorem extent_cons (line : Line) (rest : List Line) :
    extent (line :: rest) = line.text.length + 4 + extent rest := rfl

theorem extent_append (front back : List Line) :
    extent (front ++ back) = extent front + extent back := by
  induction front with
  | nil => exact (Nat.zero_add _).symm
  | cons line rest ih =>
    rw [List.cons_append, extent_cons, extent_cons, ih]
    exact (Nat.add_assoc _ _ _).symm

theorem length_records (lines : List Line) : (records lines).length = extent lines := by
  induction lines with
  | nil => rfl
  | cons line rest ih =>
    rw [records_cons, List.length_append, Line.length_record, ih, extent_cons]

theorem length_le_extent (lines : List Line) : lines.length ≤ extent lines := by
  induction lines with
  | nil => exact Nat.le_refl _
  | cons line rest ih =>
    rw [extent_cons, List.length_cons]
    omega

/-- A program: a finite map from line numbers to texts that are not empty. -/
structure Listing where
  lines : List Line
  ascending : lines.Pairwise fun a b => a.number < b.number
  storable : ∀ line ∈ lines, Storable line.number line.text
  text_ne_nil : ∀ line ∈ lines, line.text ≠ []

namespace Listing

theorem ext {l l' : Listing} (h : l.lines = l'.lines) : l = l' := by
  cases l
  cases l'
  cases h
  rfl

def empty : Listing :=
  ⟨[], List.Pairwise.nil, fun _ h => absurd h List.not_mem_nil,
    fun _ h => absurd h List.not_mem_nil⟩

def below (l : Listing) (number : UInt16) : List Line :=
  l.lines.filter fun line => line.number < number

def same (l : Listing) (number : UInt16) : List Line :=
  l.lines.filter fun line => line.number = number

def above (l : Listing) (number : UInt16) : List Line :=
  l.lines.filter fun line => number < line.number

def onward (l : Listing) (number : UInt16) : List Line :=
  l.lines.filter fun line => number ≤ line.number

def text? (l : Listing) (number : UInt16) : Option (List UInt8) :=
  (l.lines.find? fun line => line.number = number).map Line.text

def entry (number : UInt16) (text : List UInt8) : List Line :=
  if text = [] then [] else [⟨number, text⟩]

/-- An ascending list is what it has below a number and what it has from that number on. -/
theorem filter_lt_append {lines : List Line} (h : lines.Pairwise fun a b => a.number < b.number)
    (number : UInt16) :
    lines.filter (fun line => line.number < number) ++
      lines.filter (fun line => number ≤ line.number) = lines := by
  induction lines with
  | nil => rfl
  | cons line rest ih =>
    obtain ⟨hl, hr⟩ := List.pairwise_cons.1 h
    by_cases hn : line.number < number
    · have hn' : ¬ number ≤ line.number := UInt16.not_le.2 hn
      rw [List.filter_cons_of_pos (by simpa using hn), List.filter_cons_of_neg (by simpa using hn'),
        List.cons_append, ih hr]
    · have hn' : number ≤ line.number := UInt16.not_lt.1 hn
      have hrest : ∀ a ∈ rest, ¬ a.number < number := by
        intro a ha hlt
        exact hn (UInt16.lt_trans (hl a ha) hlt)
      have hnil : rest.filter (fun line => line.number < number) = [] := by
        simpa [List.filter_eq_nil_iff] using hrest
      rw [List.filter_cons_of_neg (by simpa using hn), hnil, List.nil_append,
        List.filter_eq_self.2]
      intro a ha
      rcases List.mem_cons.1 ha with rfl | ha
      · simpa using hn'
      · simpa using UInt16.not_lt.1 (hrest a ha)

/-- What an ascending list has from a number on begins with the line of that number. -/
theorem filter_eq_append {lines : List Line} (h : lines.Pairwise fun a b => a.number < b.number)
    (number : UInt16) :
    lines.filter (fun line => line.number = number) ++
      lines.filter (fun line => number < line.number) =
        lines.filter fun line => number ≤ line.number := by
  induction lines with
  | nil => rfl
  | cons line rest ih =>
    obtain ⟨hl, hr⟩ := List.pairwise_cons.1 h
    by_cases he : line.number = number
    · have hlt : ¬ number < line.number := by rw [he]; exact UInt16.lt_irrefl number
      have hle : number ≤ line.number := by rw [he]; exact UInt16.le_refl number
      rw [List.filter_cons_of_pos (by simpa using he), List.filter_cons_of_neg (by simpa using hlt),
        List.filter_cons_of_pos (by simpa using hle), List.cons_append, ih hr]
    · -- Past the place of the number no line can have it, as the list ascends.
      by_cases hlt : number < line.number
      · have hle : number ≤ line.number := UInt16.le_of_lt hlt
        have hnil : rest.filter (fun line => line.number = number) = [] := by
          rw [List.filter_eq_nil_iff]
          intro a ha hn
          have := UInt16.lt_trans hlt (hl a ha)
          rw [of_decide_eq_true hn] at this
          exact UInt16.lt_irrefl _ this
        have hih := ih hr
        rw [hnil, List.nil_append] at hih
        rw [List.filter_cons_of_neg (by simpa using he), hnil, List.nil_append,
          List.filter_cons_of_pos (by simpa using hlt), List.filter_cons_of_pos
            (by simpa using hle), hih]
      · have hle : ¬ number ≤ line.number := by
          intro hle
          exact he (UInt16.le_antisymm (UInt16.not_lt.1 hlt) hle)
        rw [List.filter_cons_of_neg (by simpa using he), List.filter_cons_of_neg
          (by simpa using hlt),
          List.filter_cons_of_neg (by simpa using hle), ih hr]

theorem below_append_onward (l : Listing) (number : UInt16) :
    l.below number ++ l.onward number = l.lines :=
  filter_lt_append l.ascending number

theorem same_append_above (l : Listing) (number : UInt16) :
    l.same number ++ l.above number = l.onward number :=
  filter_eq_append l.ascending number

theorem below_append_same_append_above (l : Listing) (number : UInt16) :
    l.below number ++ (l.same number ++ l.above number) = l.lines := by
  rw [same_append_above, below_append_onward]

/-- What the lines below a number, the line of that number and those above it take is what the
program takes. -/
theorem extent_parts (l : Listing) (number : UInt16) :
    extent (l.below number) + (extent (l.same number) + extent (l.above number)) =
    extent l.lines := by
  rw [← extent_append, ← extent_append, below_append_same_append_above]

theorem same_eq (l : Listing) (number : UInt16) :
    l.same number = [] ∨ ∃ line, l.same number = [line] ∧ line.number = number := by
  cases hs : l.same number with
  | nil => exact Or.inl rfl
  | cons line rest =>
    have hn : ∀ a ∈ line :: rest, a.number = number := by
      intro a ha
      rw [← hs] at ha
      simpa using (List.mem_filter.1 ha).2
    have hp : (line :: rest).Pairwise fun a b => a.number < b.number := by
      rw [← hs]
      exact l.ascending.filter _
    cases rest with
    | nil => exact Or.inr ⟨line, rfl, hn line List.mem_cons_self⟩
    | cons second tail =>
      have hlt := (List.pairwise_cons.1 hp).1 second List.mem_cons_self
      rw [hn line List.mem_cons_self, hn second (List.mem_cons_of_mem _ List.mem_cons_self)] at hlt
      exact absurd hlt (UInt16.lt_irrefl _)

theorem mem_entry {number : UInt16} {text : List UInt8} {line : Line}
    (h : line ∈ entry number text) : line = ⟨number, text⟩ ∧ text ≠ [] := by
  unfold entry at h
  split at h
  · exact absurd h List.not_mem_nil
  · exact ⟨List.mem_singleton.1 h, ‹_›⟩

theorem extent_entry (number : UInt16) (text : List UInt8) :
    extent (entry number text) = if text = [] then 0 else text.length + 4 := by
  unfold entry
  split
  · rfl
  · rfl

/-- The program with a line set to a text, or without the line where the text is empty. -/
def put (l : Listing) (number : UInt16) (text : List UInt8) (h : Storable number text) :
    Listing where
  lines := l.below number ++ (entry number text ++ l.above number)
  ascending := by
    refine List.pairwise_append.2 ⟨l.ascending.filter _, List.pairwise_append.2
      ⟨?_, l.ascending.filter _, ?_⟩, ?_⟩
    · unfold entry
      split
      · exact List.Pairwise.nil
      · exact List.pairwise_singleton _ _
    · intro a ha b hb
      rw [(mem_entry ha).1]
      simpa using (List.mem_filter.1 hb).2
    · intro a ha b hb
      have hlt : a.number < number := by simpa using (List.mem_filter.1 ha).2
      rcases List.mem_append.1 hb with hb | hb
      · rw [(mem_entry hb).1]
        exact hlt
      · exact UInt16.lt_trans hlt (by simpa using (List.mem_filter.1 hb).2)
  storable := by
    intro line hm
    rcases List.mem_append.1 hm with hm | hm
    · exact l.storable line (List.mem_filter.1 hm).1
    · rcases List.mem_append.1 hm with hm | hm
      · rw [(mem_entry hm).1]
        exact h
      · exact l.storable line (List.mem_filter.1 hm).1
  text_ne_nil := by
    intro line hm
    rcases List.mem_append.1 hm with hm | hm
    · exact l.text_ne_nil line (List.mem_filter.1 hm).1
    · rcases List.mem_append.1 hm with hm | hm
      · rw [(mem_entry hm).1]
        exact (mem_entry hm).2
      · exact l.text_ne_nil line (List.mem_filter.1 hm).1

theorem lines_put (l : Listing) (number : UInt16) (text : List UInt8) (h : Storable number text) :
    (l.put number text h).lines = l.below number ++ (entry number text ++ l.above number) := rfl

/-- Setting one line changes the text of that line and of no other. -/
theorem text?_put (l : Listing) (number : UInt16) (text : List UInt8) (h : Storable number text)
    (k : UInt16) :
    (l.put number text h).text? k =
      if k = number then (if text = [] then none else some text) else l.text? k := by
  -- A search passes over every part of the list that has no line of the number in it.
  have hfind (p : Line → Bool) : (∀ line : Line, line.number = k → p line = false) →
      (l.lines.filter p).find? (fun line => line.number = k) = none := by
    intro hp
    rw [List.find?_eq_none]
    intro line hm hk
    have := (List.mem_filter.1 hm).2
    rw [hp line (of_decide_eq_true hk)] at this
    exact Bool.false_ne_true this
  by_cases hk : k = number
  · subst hk
    have hb : (l.below k).find? (fun line => line.number = k) = none :=
      hfind _ fun line hl => by simp [hl]
    have ha : (l.above k).find? (fun line => line.number = k) = none :=
      hfind _ fun line hl => by simp [hl]
    rw [if_pos rfl, text?, put, List.find?_append, hb, List.find?_append, ha, entry]
    split <;> simp
  · have hs : (l.same number).find? (fun line => line.number = k) = none :=
      hfind _ fun line hl => by simp [hl, hk]
    have he : (entry number text).find? (fun line => line.number = k) = none := by
      rw [List.find?_eq_none]
      intro line hm hn
      rw [(mem_entry hm).1] at hn
      exact hk (of_decide_eq_true hn).symm
    rw [if_neg hk, text?, text?, put, ← l.below_append_same_append_above number]
    simp only [List.find?_append, hs, he]

theorem extent_put (l : Listing) (number : UInt16) (text : List UInt8) (h : Storable number text) :
    extent (l.put number text h).lines =
      extent (l.below number) + ((if text = [] then 0 else text.length + 4) +
        extent (l.above number)) := by
  rw [lines_put, extent_append, extent_append, extent_entry]

section
variable (l : Listing) (number : UInt16)

theorem filter_ne_below : (l.below number).filter (·.number ≠ number) = l.below number := by
  refine List.filter_eq_self.2 fun line hl => ?_
  have hlt : line.number < number := by simpa using (List.mem_filter.1 hl).2
  exact decide_eq_true (UInt16.ne_of_lt hlt)

theorem filter_ne_above : (l.above number).filter (·.number ≠ number) = l.above number := by
  refine List.filter_eq_self.2 fun line hl => ?_
  have hlt : number < line.number := by simpa using (List.mem_filter.1 hl).2
  exact decide_eq_true (UInt16.ne_of_lt hlt).symm

theorem filter_ne_eq : l.lines.filter (·.number ≠ number) = l.below number ++ l.above number := by
  have hsame : (l.same number).filter (·.number ≠ number) = [] := by
    rw [List.filter_eq_nil_iff]
    intro line hl
    have he : line.number = number := by simpa using (List.mem_filter.1 hl).2
    simpa using he
  rw [← l.below_append_same_append_above number, List.filter_append, List.filter_append, hsame,
    filter_ne_below,
    filter_ne_above, List.nil_append]

theorem filter_ne_put (text : List UInt8) (h : Storable number text) :
    (l.put number text h).lines.filter (·.number ≠ number) = l.lines.filter
    (·.number ≠ number) := by
  have hentry : (entry number text).filter (·.number ≠ number) = [] := by
    rw [List.filter_eq_nil_iff]
    intro line hl
    simp [(mem_entry hl).1]
  rw [filter_ne_eq l, lines_put, List.filter_append, List.filter_append, hentry, filter_ne_below,
    filter_ne_above,
    List.nil_append]

theorem lines_put_nil (h : Storable number []) :
    (l.put number [] h).lines = l.lines.filter (·.number ≠ number) := by
  rw [filter_ne_eq]
  rfl

end

theorem below_entry_above {l : Listing} {first second : List UInt8} (hl : l.lines = [⟨1, first⟩])
    (hne : second ≠ []) :
    l.below 2 ++ (entry 2 second ++ l.above 2) = [⟨1, first⟩, ⟨2, second⟩] := by
  rw [below, above, hl, entry, if_neg hne]
  rfl

def Fits (l : Listing) (top : Nat) (number : UInt16) (text : List UInt8) : Prop :=
  extent (l.below number ++ (entry number text ++ l.above number)) + 4 ≤ top

instance (l : Listing) (top : Nat) (number : UInt16) (text : List UInt8) :
    Decidable (l.Fits top number text) :=
  inferInstanceAs (Decidable (_ ≤ _))

theorem fits_iff (l : Listing) {top : Nat} {number : UInt16} {text : List UInt8}
    (h : Storable number text) :
    l.Fits top number text ↔ extent (l.put number text h).lines + 4 ≤ top := Iff.rfl

theorem fits_nil (l : Listing) {top : Nat} (number : UInt16) (h : extent l.lines + 4 ≤ top) :
    l.Fits top number [] := by
  have hparts := l.extent_parts number
  rw [Fits, extent_append, extent_append, extent_entry, if_pos rfl]
  omega

/-- There is room for a line that has room beside the program as it is, whatever it replaces. -/
theorem fits_beside (l : Listing) {top : Nat} (number : UInt16) {text : List UInt8}
    (h : extent l.lines + text.length + 8 ≤ top) : l.Fits top number text := by
  have hparts := l.extent_parts number
  rw [Fits, extent_append, extent_append, extent_entry]
  split
  · omega
  · omega

/-- The program with a line set if it can be and there is room, and otherwise as it is. -/
def enter (l : Listing) (top : Nat) (number : UInt16) (text : List UInt8) : Listing :=
  if h : Storable number text ∧ l.Fits top number text then l.put number text h.1 else l

theorem enter_of_fits {l : Listing} {top : Nat} {number : UInt16} {text : List UInt8}
    (h : Storable number text) (hf : l.Fits top number text) :
    l.enter top number text = l.put number text h :=
  dif_pos ⟨h, hf⟩

theorem enter_of_not {l : Listing} {top : Nat} {number : UInt16} {text : List UInt8}
    (h : ¬ (Storable number text ∧ l.Fits top number text)) : l.enter top number text = l :=
  dif_neg h

/-- What holds of every line, and of the line that is set, holds of every line of the program that
results. -/
theorem forall_put {P : Line → Prop} {l : Listing} {number : UInt16} {text : List UInt8}
    (hl : ∀ line ∈ l.lines, P line) (h : Storable number text) (hn : P ⟨number, text⟩) :
    ∀ line ∈ (l.put number text h).lines, P line := by
  intro line hm
  rw [lines_put] at hm
  simp only [List.mem_append] at hm
  obtain hm | hm | hm := hm
  · exact hl line (List.mem_filter.1 hm).1
  · rw [(mem_entry hm).1]
    exact hn
  · exact hl line (List.mem_filter.1 hm).1

theorem forall_enter {P : Line → Prop} {l : Listing} {top : Nat} {number : UInt16}
    {text : List UInt8} (hl : ∀ line ∈ l.lines, P line)
    (hn : Storable number text → P ⟨number, text⟩) :
    ∀ line ∈ (l.enter top number text).lines, P line := by
  by_cases hfit : Storable number text ∧ l.Fits top number text
  · rw [enter_of_fits hfit.1 hfit.2]
    exact forall_put hl hfit.1 (hn hfit.1)
  · rw [enter_of_not hfit]
    exact hl

/-- A line begins at this address of the program. -/
def StartsAt (l : Listing) (line : Line) (address : Nat) : Prop :=
  ∃ before after, l.lines = before ++ line :: after ∧ address = extent before

theorem StartsAt.mem {l : Listing} {line : Line} {address : Nat} (h : l.StartsAt line address) :
    line ∈ l.lines := by
  obtain ⟨before, after, he, -⟩ := h
  rw [he]
  exact List.mem_append_right _ List.mem_cons_self

theorem StartsAt.end_le {l : Listing} {line : Line} {address : Nat} (h : l.StartsAt line address) :
    address + line.text.length + 4 ≤ extent l.lines := by
  obtain ⟨before, after, he, rfl⟩ := h
  rw [he, extent_append, extent_cons]
  omega

end Listing
end LineBasic
