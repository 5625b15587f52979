import LineBasic.Proofs.Memory.Records

namespace LineBasic

namespace Frame

/-- The line that a frame continues in, none in direct mode. -/
def line : Frame → Option Nat
  | gosub line _ => line
  | loop _ _ _ line _ => line

/-- The position that a frame continues at. -/
def pos : Frame → Nat
  | gosub _ pos => pos
  | loop _ _ _ _ pos => pos

structure Savable (frame : Frame) : Prop where
  line_lt : frame.line.all (· < 65535)
  pos_lt : frame.pos < 65536

/-- The saved line and position are below the largest word. -/
structure Plain (frame : Frame) : Prop where
  line_lt : frame.line.all (· < 65535)
  pos_lt : frame.pos < 65535

theorem Plain.savable {frame : Frame} (h : frame.Plain) : frame.Savable :=
  ⟨h.line_lt, Nat.lt_succ_of_lt h.pos_lt⟩

theorem decode?_encode_append (frame : Frame) (rest : List UInt8) (h : frame.Savable) :
    decode? (frame.encode ++ rest) = some frame := by
  apply decode?_encode
  cases frame with
  | gosub line pos => exact ⟨h.line_lt, h.pos_lt⟩
  | loop counter terminal step line pos => exact ⟨h.line_lt, h.pos_lt⟩

theorem decode?_take_encode (frame : Frame) (rest : List UInt8) (h : frame.Savable) :
    decode? ((frame.encode ++ rest).take Memory.loopFrameSize) = some frame := by
  have hle : frame.encode.length ≤ Memory.loopFrameSize := by
    rw [length_encode]
    cases frame with
    | gosub line pos => exact Nat.le_of_ble_eq_true rfl
    | loop counter terminal step line pos => exact Nat.le_refl _
  rw [List.take_append, List.take_of_length_le hle]
  exact decode?_encode_append frame _ h

end Frame

def depth : List Frame → Nat
  | [] => 0
  | frame :: rest => frame.size + depth rest

theorem depth_cons (frame : Frame) (rest : List Frame) :
    depth (frame :: rest) = frame.size + depth rest := rfl

theorem depth_append (front back : List Frame) :
    depth (front ++ back) = depth front + depth back := by
  induction front with
  | nil => exact (Nat.zero_add _).symm
  | cons frame rest ih =>
    rw [List.cons_append, depth_cons, depth_cons, ih]
    exact (Nat.add_assoc _ _ _).symm

def encodings (frames : List Frame) : List UInt8 :=
  frames.flatMap Frame.encode

theorem encodings_cons (frame : Frame) (rest : List Frame) :
    encodings (frame :: rest) = frame.encode ++ encodings rest :=
  List.flatMap_cons

theorem encodings_append (front back : List Frame) :
    encodings (front ++ back) = encodings front ++ encodings back :=
  List.flatMap_append

theorem length_encodings (frames : List Frame) : (encodings frames).length = depth frames := by
  induction frames with
  | nil => rfl
  | cons frame rest ih =>
    rw [encodings_cons, List.length_append, Frame.length_encode, ih, depth_cons]

def addressed (address : Nat) : List Frame → List (Nat × Frame)
  | [] => []
  | frame :: rest => (address, frame) :: addressed (address + frame.size) rest

theorem map_snd_addressed (address : Nat) (frames : List Frame) :
    (addressed address frames).map Prod.snd = frames := by
  induction frames generalizing address with
  | nil => rfl
  | cons frame rest ih => rw [addressed, List.map_cons, ih]

theorem eq_of_find?_addressed {p : Frame → Bool} {frames : List Frame} {start address : Nat}
    {frame : Frame} (h : (addressed start frames).find? (fun x => p x.2) = some (address, frame)) :
    ∃ before after, frames = before ++ frame :: after ∧ address = start + depth before ∧
      p frame ∧ ∀ f ∈ before, ¬ p f := by
  induction frames generalizing start with
  | nil => exact absurd h (by simp [addressed])
  | cons first rest ih =>
    rw [addressed, List.find?_cons] at h
    by_cases hp : p first
    · simp only [hp] at h
      cases h
      exact ⟨[], rest, rfl, rfl, hp, fun f hf => absurd hf List.not_mem_nil⟩
    · simp only [hp] at h
      obtain ⟨before, after, he, ha, hpf, hn⟩ := ih h
      refine ⟨first :: before, after, by rw [he]; rfl, by rw [ha, depth_cons]; omega, hpf,
        fun f hf => ?_⟩
      rcases List.mem_cons.1 hf with rfl | hf
      · exact hp
      · exact hn f hf

/-- A frame that is searched for is found under frames that do not fit. -/
theorem find?_addressed {p : Frame → Bool} {above : List Frame} {frame : Frame} (start : Nat)
    (below : List Frame) (habove : ∀ f ∈ above, p f = false) (hframe : p frame = true) :
    (addressed start (above ++ frame :: below)).find? (fun x => p x.2) = some
      (start + depth above, frame) := by
  induction above generalizing start with
  | nil => simp [addressed, hframe, depth]
  | cons first rest ih =>
    have hfirst : p first = false := habove first List.mem_cons_self
    rw [List.cons_append, addressed, List.find?_cons]
    simp only [hfirst]
    rw [ih _ fun f hf => habove f (List.mem_cons_of_mem _ hf), depth_cons, Nat.add_assoc]

theorem map_snd_find?_addressed (p : Frame → Bool) (start : Nat) (frames : List Frame) :
    ((addressed start frames).find? (fun x => p x.2)).map Prod.snd = frames.find? p := by
  have hframes := map_snd_addressed start frames
  rw [← hframes, List.find?_map, hframes]
  rfl

namespace Memory

structure Stacks (m : Memory) (frames : List Frame) : Prop where
  stands : Stands m.ram m.stackTop (encodings frames)
  top_add : m.stackTop + depth frames = m.size
  savable : ∀ frame ∈ frames, frame.Savable

theorem framesAt_encodings (address : Nat) {frames : List Frame}
    (h : ∀ frame ∈ frames, frame.Savable) :
    framesAt address (encodings frames) = addressed address frames := by
  induction frames generalizing address with
  | nil =>
    rw [framesAt]
    rfl
  | cons frame rest ih =>
    have hd := Frame.decode?_encode_append frame (encodings rest) (h frame List.mem_cons_self)
    have hdrop : (frame.encode ++ encodings rest).drop frame.size = encodings rest := by
      rw [← Frame.length_encode, List.drop_left]
    rw [encodings_cons, framesAt]
    split
    · rename_i hn
      rw [hd] at hn
      cases hn
    · rename_i found hs
      rw [hd] at hs
      cases hs
      rw [hdrop, ih _ fun f hf => h f (List.mem_cons_of_mem _ hf), addressed]

variable {m : Memory} {frames : List Frame}

namespace Stacks

theorem frames_eq (h : m.Stacks frames) : m.frames = addressed m.stackTop frames := by
  have he : (m.ram.extract m.stackTop m.size).toList = encodings frames :=
    h.stands.extract_eq (by rw [length_encodings, h.top_add]) (Nat.le_refl _)
  rw [Memory.frames, he, framesAt_encodings _ h.savable]

theorem congr {m' : Memory} (h : m.Stacks frames) (ht : m'.stackTop = m.stackTop)
    (hs : m'.size = m.size) (ha : Agree m.ram m'.ram m.stackTop m.size) : m'.Stacks frames := by
  refine ⟨?_, by rw [ht, hs, h.top_add], h.savable⟩
  rw [ht]
  refine h.stands.congr ?_
  rw [length_encodings, h.top_add]
  exact ha

theorem eq_nil (h : m.Stacks frames) (ht : m.stackTop = m.size) : frames = [] := by
  have htop := h.top_add
  cases frames with
  | nil => rfl
  | cons frame rest =>
    have hsize := frame.size_pos
    rw [depth_cons] at htop
    omega

theorem frameAt?_eq {before after : List Frame} {frame : Frame}
    (h : m.Stacks (before ++ frame :: after)) :
    m.frameAt? (m.stackTop + depth before) = .ok (some frame) := by
  have htop := h.top_add
  rw [depth_append, depth_cons] at htop
  have hs := h.stands
  rw [encodings_append, encodings_cons, stands_append, length_encodings] at hs
  have hle : m.stackTop + depth before ≤ m.size := by omega
  have hbytes : (m.ram.extract (m.stackTop + depth before) m.size).toList =
      frame.encode ++ encodings after :=
    hs.2.extract_eq (by rw [List.length_append, Frame.length_encode, length_encodings]; omega)
      (Nat.le_refl _)
  -- Ten bytes are taken whatever the frame is, and fewer where the stack ends before.
  have htake : (m.ram.extract (m.stackTop + depth before)
      (m.stackTop + depth before + loopFrameSize)).toList =
        (frame.encode ++ encodings after).take loopFrameSize := by
    rw [← hbytes, Array.toList_extract, Array.toList_extract, List.extract_eq_take_drop,
      List.extract_eq_take_drop, List.take_take]
    have hdrop : (m.ram.toList.drop (m.stackTop + depth before)).length =
        m.size - (m.stackTop + depth before) := by
      rw [List.length_drop, Array.length_toList]
      rfl
    by_cases hl : loopFrameSize ≤ m.size - (m.stackTop + depth before)
    · rw [Nat.add_sub_cancel_left, Nat.min_eq_left hl]
    · rw [Nat.add_sub_cancel_left, List.take_of_length_le (by omega),
        List.take_of_length_le (by omega)]
  rw [frameAt?, if_pos hle, htake,
    Frame.decode?_take_encode frame _ (h.savable frame
      (List.mem_append_right _ List.mem_cons_self))]

/-- A search finds a frame of the stack, or there is none to find. -/
theorem find?_eq_some {p : Frame → Bool} {address : Nat} {frame : Frame} (h : m.Stacks frames)
    (hf : m.frames.find? (fun x => p x.2) = some (address, frame)) :
    ∃ before after, frames = before ++ frame :: after ∧ address = m.stackTop + depth before ∧
      p frame ∧ ∀ f ∈ before, ¬ p f := by
  rw [h.frames_eq] at hf
  exact eq_of_find?_addressed hf

theorem findGosub_eq_some {address : Nat} {frame : Frame} (h : m.Stacks frames)
    (hf : m.findGosub = some (address, frame)) :
    ∃ before after, frames = before ++ frame :: after ∧ address = m.stackTop + depth before ∧
      frame.isLoop = false ∧ ∀ f ∈ before, f.isLoop = true := by
  obtain ⟨before, after, he, ha, hp, hb⟩ := find?_eq_some (p := fun frame => !frame.isLoop) h hf
  exact ⟨before, after, he, ha, by simpa using hp, fun f hm => by simpa using hb f hm⟩

theorem findLoop_eq_some {v : Option Variable} {address : Nat} {frame : Frame} (h : m.Stacks frames)
    (hf : m.findLoop v = some (address, frame)) :
    ∃ before after, frames = before ++ frame :: after ∧ address = m.stackTop + depth before ∧
      frame.isLoopOver v = true ∧ ∀ f ∈ before, f.isLoopOver v = false := by
  obtain ⟨before, after, he, ha, hp, hb⟩ := find?_eq_some (p := Frame.isLoopOver v) h hf
  exact ⟨before, after, he, ha, hp, fun f hm => by simpa using hb f hm⟩

theorem findGosub_eq {before after : List Frame} {frame : Frame}
    (h : m.Stacks (before ++ frame :: after)) (hbefore : ∀ f ∈ before, f.isLoop = true)
    (hframe : frame.isLoop = false) :
    m.findGosub = some (m.stackTop + depth before, frame) := by
  rw [findGosub, h.frames_eq]
  exact find?_addressed (p := fun frame => !frame.isLoop) _ after
    (fun f hf => by rw [hbefore f hf]; rfl)
    (by rw [hframe]; rfl)

theorem findLoop_eq {v : Option Variable} {before after : List Frame} {frame : Frame}
    (h : m.Stacks (before ++ frame :: after)) (hbefore : ∀ f ∈ before, f.isLoopOver v = false)
    (hframe : frame.isLoopOver v = true) :
    m.findLoop v = some (m.stackTop + depth before, frame) := by
  rw [findLoop, h.frames_eq]
  exact find?_addressed _ after hbefore hframe

end Stacks

section
variable {m' : Memory} (h : m.Stacks frames) (h' : m'.Stacks frames)
include h h'

/-- Where the same frames are on two stacks the same call is found. -/
theorem map_findGosub : m'.findGosub.map Prod.snd = m.findGosub.map Prod.snd := by
  rw [findGosub, findGosub, h.frames_eq, h'.frames_eq, map_snd_find?_addressed
    (fun frame => !frame.isLoop),
    map_snd_find?_addressed (fun frame => !frame.isLoop)]

theorem map_findLoop (v : Option Variable) :
    (m'.findLoop v).map Prod.snd = (m.findLoop v).map Prod.snd := by
  rw [findLoop, findLoop, h.frames_eq, h'.frames_eq, map_snd_find?_addressed,
    map_snd_find?_addressed]

end

theorem stacks_nil (h : m.stackTop = m.size) : m.Stacks [] :=
  ⟨stands_nil _ _, h, fun _ hf => absurd hf List.not_mem_nil⟩

theorem pushFrame_full {frame : Frame} (h : m.stackTop < m.stackLimit + frame.size) :
    pushFrame frame m = .error (.error (.exhausted .stackOverflow)) m := by
  unfold pushFrame
  rw [bind_of_ok (show (get : Update Memory) m = .ok m m from rfl)]
  dsimp only
  rw [if_pos h]
  rfl

def pushed (m : Memory) (frame : Frame) : Memory :=
  { m with
    ram := overwrite m.ram (m.stackTop - frame.size) frame.encode
    stackTop := m.stackTop - frame.size }

@[simp]
theorem variablesBegin_pushed (frame : Frame) :
    (m.pushed frame).variablesBegin = m.variablesBegin := rfl

theorem pushFrame_eq {frame : Frame} (h : ¬ m.stackTop < m.stackLimit + frame.size)
    (ht : m.stackTop ≤ m.size) : pushFrame frame m = .ok () (m.pushed frame) := by
  unfold pushFrame
  rw [bind_of_ok (show (get : Update Memory) m = .ok m m from rfl)]
  dsimp only
  rw [if_neg h]
  exact write_eq (m := { m with stackTop := m.stackTop - frame.size })
    (by rw [Frame.length_encode]; show _ ≤ m.size; omega)

theorem frame_fits {frame : Frame} (ht : m.stackTop ≤ m.size) (hr : frame.size ≤ m.stackTop) :
    m.stackTop - frame.size + frame.encode.length ≤ m.ram.size := by
  rw [Frame.length_encode]
  show _ ≤ m.size
  omega

theorem Stacks.pushed {frame : Frame} (h : m.Stacks frames) (hs : frame.Savable)
    (hr : frame.size ≤ m.stackTop) : (m.pushed frame).Stacks (frame :: frames) := by
  have htop := h.top_add
  have hfits := frame_fits (show m.stackTop ≤ m.size by omega) hr
  refine ⟨?_, ?_, ?_⟩
  · rw [encodings_cons]
    refine stands_append.2 ⟨stands_overwrite hfits, ?_⟩
    have hagree : Agree m.ram (m.pushed frame).ram m.stackTop m.size :=
      agree_overwrite_above hfits (by rw [Frame.length_encode]; omega)
    have hend : (m.pushed frame).stackTop + frame.encode.length = m.stackTop := by
      show m.stackTop - frame.size + frame.encode.length = m.stackTop
      rw [Frame.length_encode]
      omega
    rw [hend]
    exact h.stands.congr (by rw [length_encodings, htop]; exact hagree)
  · rw [depth_cons]
    show m.stackTop - frame.size + _ = (overwrite _ _ _).size
    rw [size_overwrite]
    show _ = m.size
    omega
  · intro f hf
    rcases List.mem_cons.1 hf with rfl | hf
    · exact hs
    · exact h.savable f hf

/-- The buffer without the frame at an address. -/
def removed (m : Memory) (address : Nat) (frame : Frame) : Memory :=
  { m with
    ram := moved m.ram m.stackTop address (m.stackTop + frame.size)
    stackTop := m.stackTop + frame.size }

section
variable {before after : List Frame} {frame : Frame} (h : m.Stacks (before ++ frame :: after))
include h

theorem removeFrame_eq :
    removeFrame (m.stackTop + depth before) m =
      .ok (some frame) (m.removed (m.stackTop + depth before) frame) := by
  have htop := h.top_add
  rw [depth_append, depth_cons] at htop
  unfold removeFrame
  rw [bind_of_ok (reading_of_ok h.frameAt?_eq)]
  dsimp only
  refine (bind_of_ok (show (get : Update Memory) m = .ok m m from rfl)).trans ?_
  exact bind_of_ok (move_eq m (m.stackTop + frame.size) (Nat.le_add_right _ _)
    (by omega) (by omega))

theorem Stacks.removed :
    (m.removed (m.stackTop + depth before) frame).Stacks (before ++ after) := by
  have htop := h.top_add
  rw [depth_append, depth_cons] at htop
  have hs := h.stands
  rw [encodings_append, encodings_cons, stands_append, stands_append, length_encodings,
    Frame.length_encode] at hs
  obtain ⟨hbefore, -, hafter⟩ := hs
  -- The frames above move up by the size of the one that goes, and nothing below it is touched.
  have hget (i : Nat) := getElem?_moved m.ram m.stackTop (m.stackTop + depth before)
    (m.stackTop + frame.size) i (by show _ ≤ m.size; omega) (by show _ ≤ m.size; omega)
  refine ⟨?_, ?_, ?_⟩
  · rw [encodings_append, stands_append, length_encodings]
    refine ⟨fun i hi => ?_, fun i hi => ?_⟩
    · have hi' := hi
      rw [length_encodings] at hi'
      show (moved _ _ _ _)[m.stackTop + frame.size + i]? = _
      rw [hget, if_pos (by omega), Nat.add_sub_cancel_left, hbefore i hi]
    · show (moved _ _ _ _)[m.stackTop + frame.size + depth before + i]? = _
      rw [hget, if_neg (by omega), ← hafter i hi]
      congr 1
      omega
  · rw [depth_append]
    show m.stackTop + frame.size + _ = (moved _ _ _ _).size
    rw [size_moved]
    show _ = m.size
    omega
  · intro f hf
    rcases List.mem_append.1 hf with hf | hf
    · exact h.savable f (List.mem_append_left _ hf)
    · exact h.savable f (List.mem_append_right _ (List.mem_cons_of_mem _ hf))

theorem Stacks.unwound :
    ({ m with stackTop := m.stackTop + depth before } : Memory).Stacks (frame :: after) := by
  have hs := h.stands
  rw [encodings_append, stands_append, length_encodings] at hs
  refine ⟨hs.2, ?_, fun f hf => h.savable f (List.mem_append_right _ hf)⟩
  have htop := h.top_add
  rw [depth_append, ← Nat.add_assoc] at htop
  exact htop

theorem unwindPast_eq :
    unwindPast (m.stackTop + depth before) m =
      .ok (some frame) { m with stackTop := m.stackTop + depth before + frame.size } := by
  unfold unwindPast
  rw [bind_of_ok (reading_of_ok h.frameAt?_eq)]
  rfl

theorem Stacks.dropped :
    ({ m with stackTop := m.stackTop + depth before + frame.size } : Memory).Stacks after := by
  have hs := h.unwound.stands
  rw [encodings_cons, stands_append, Frame.length_encode] at hs
  refine ⟨hs.2, ?_, fun f hf => h.savable f (List.mem_append_right _ (List.mem_cons_of_mem _ hf))⟩
  have htop := h.top_add
  rw [depth_append, depth_cons] at htop
  show m.stackTop + depth before + frame.size + depth after = m.size
  omega

end
end Memory
end LineBasic
