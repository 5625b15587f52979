import LineBasic.Proofs.Memory.Merge

namespace LineBasic

theorem getElem?_addressed (start : Nat) (frames : List Frame) (k : Nat) :
    (addressed start frames)[k]? = frames[k]?.map fun frame =>
      (start + depth (frames.take k), frame) := by
  induction frames generalizing start k with
  | nil => rfl
  | cons first rest ih =>
    cases k with
    | zero => rfl
    | succ k =>
      rw [addressed, List.getElem?_cons_succ, List.getElem?_cons_succ, ih,
        List.take_succ_cons, depth_cons,
        Nat.add_assoc]

namespace Memory
variable {m m' first : Memory} {l : Listing} {frames : List Frame}

/-- The buffer has come to hold this on its control stack and is otherwise as it was. -/
structure OnlyStack (m m' : Memory) : Prop extends SameRegions m m' where
  agree : Agree m.ram m'.ram 0 m.stackLimit
  lines_eq : m'.lines = m.lines
  fetch_eq : ∀ v, m'.fetch v = m.fetch v

/-- The bytes of the control stack are those of these frames, and they read back as they are. -/
structure Decodes (m : Memory) (frames : List Frame) : Prop where
  bytes_eq : (m.ram.extract m.stackTop m.size).toList = encodings frames
  frames_eq : m.frames.map Prod.snd = frames
  stackDepth_eq : m.stackDepth = .ok (depth frames)

structure Restacked (m m' : Memory) (frames : List Frame) : Prop extends OnlyStack m m',
    Decodes m' frames

/-- The control stack holds these frames, and each operation does to it what it does to a list. -/
structure ControlStack (m : Memory) (frames : List Frame) : Prop extends Decodes m frames where
  /-- A frame is pushed if there is room for it, and otherwise nothing changes. -/
  push : ∀ frame : Frame, frame.Plain →
    if m.size - m.stackLimit < depth frames + frame.size then
      pushFrame frame m = .error (.error (.exhausted .stackOverflow)) m
    else ∃ m', pushFrame frame m = .ok () m' ∧ m.Restacked m' (frame :: frames)
  /-- The call that is found is the first of the list. -/
  findGosub_eq : m.findGosub = (frames.findIdx? fun frame => !frame.isLoop).bind (m.frames[·]?)
  /-- The loop that is found is the first over the variable, or the first of all loops. -/
  findLoop_eq : ∀ v, m.findLoop v = (frames.findIdx? (·.isLoopOver v)).bind (m.frames[·]?)
  remove : ∀ k address frame, m.frames[k]? = some (address, frame) →
    ∃ m', removeFrame address m = .ok (some frame) m' ∧ m.Restacked m' (frames.eraseIdx k)
  unwindTo : ∀ k address frame, m.frames[k]? = some (address, frame) →
    ∃ m', Memory.unwindTo address m = .ok () m' ∧ m.Restacked m' (frames.drop k)
  unwindPast : ∀ k address frame, m.frames[k]? = some (address, frame) →
    ∃ m', Memory.unwindPast address m = .ok (some frame) m' ∧ m.Restacked m' (frames.drop (k + 1))

namespace Sound

theorem decodes (h : m.Sound l frames) : m.Decodes frames := by
  refine ⟨h.stack.stands.extract_eq ?_ (Nat.le_refl _), ?_, ?_⟩
  · rw [length_encodings, h.stack.top_add]
  · rw [h.stack.frames_eq, map_snd_addressed]
  · rw [h.layout.stackDepth_eq]
    have := h.stack.top_add
    exact congrArg Except.ok (by omega)

/-- Two sound buffers of one program that agree below the stack differ in nothing but the stack. -/
theorem onlyStack {frames' : List Frame} (h : m.Sound l frames) (h' : m'.Sound l frames')
    (hr : m.SameRegions m') (ha : Agree m.ram m'.ram 0 m.stackLimit) : m.OnlyStack m' := by
  have hlines : m'.lines = m.lines := by rw [lines_eq h'.layout h'.holds, lines_eq h.layout h.holds]
  refine ⟨hr, ha, hlines, fun v => ?_⟩
  have hv := v.index.isLt
  have := h.layout.variables_add
  have hbyte (k : Nat) (hk : k < 52) : m'.ram.getD (m.variablesBegin + k) 0 = m.ram.getD
      (m.variablesBegin + k) 0 := by
    rw [Array.getD_eq_getD_getElem?, Array.getD_eq_getD_getElem?, ha _ (Nat.zero_le _) (by omega)]
  have hlow := hbyte (2 * v.index) (by omega)
  have hhigh := hbyte (2 * v.index + 1) (by omega)
  rw [← Nat.add_assoc] at hhigh
  rw [Memory.fetch_eq h'.layout, Memory.fetch_eq h.layout, value, value, hr.variablesBegin_eq,
    hlow, hhigh]

/-- The frame that is listed at an index lies under those before it. -/
theorem exists_split {k address : Nat} {frame : Frame} (h : m.Sound l frames)
    (hk : m.frames[k]? = some (address, frame)) :
    ∃ before after, frames = before ++ frame :: after ∧ address = m.stackTop + depth before ∧
      frames.eraseIdx k = before ++ after ∧ frames.drop k = frame :: after ∧
      frames.drop (k + 1) = after := by
  rw [h.stack.frames_eq, getElem?_addressed] at hk
  obtain ⟨found, hfound, he⟩ := Option.map_eq_some_iff.1 hk
  cases he
  obtain ⟨hlt, hget⟩ := List.getElem?_eq_some_iff.1 hfound
  have hdrop := List.drop_eq_getElem_cons hlt
  rw [hget] at hdrop
  refine ⟨frames.take k, frames.drop (k + 1), ?_, rfl, List.eraseIdx_eq_take_drop_succ _
    _, hdrop, rfl⟩
  rw [← hdrop, List.take_append_drop]

theorem find?_eq (h : m.Sound l frames) (p : Frame → Bool) :
    m.frames.find? (fun x => p x.2) = (frames.findIdx? p).bind (m.frames[·]?) := by
  have hindex : m.frames.findIdx? (fun x => p x.2) = frames.findIdx? p := by
    rw [← h.decodes.frames_eq, List.findIdx?_map]
    rfl
  rw [List.find?_eq_bind_findIdx?_getElem?, hindex]

section
variable (h : m.Sound l frames)
include h

theorem push_restacked {frame : Frame} (hf : frame.Savable)
    (hr : ¬ m.stackTop < m.stackLimit + frame.size) :
    m.Restacked (m.pushed frame) (frame :: frames) := by
  have hpushed := h.pushed hf hr
  have hfits := frame_fits h.layout.top_le (show frame.size ≤ m.stackTop by omega)
  refine ⟨h.onlyStack hpushed (m.sameRegions_pushed _) ?_, hpushed.decodes⟩
  -- There is room, so the frame is written above the limit of the stack.
  exact agree_overwrite_below hfits (by omega)

theorem remove_restacked {k address : Nat} {frame : Frame}
    (hk : m.frames[k]? = some (address, frame)) :
    removeFrame address m = .ok (some frame) (m.removed address frame) ∧
      (m.removed address frame).Sound l (frames.eraseIdx k) ∧
      m.Restacked (m.removed address frame) (frames.eraseIdx k) := by
  obtain ⟨before, after, rfl, rfl, he, -⟩ := h.exists_split hk
  rw [he]
  have hremoved := h.removed
  have hdepth := h.depth_le
  have hlimit := h.layout.limit_le
  -- The frames above are moved up within the stack: below its limit no byte is written.
  refine ⟨removeFrame_eq h.stack, hremoved,
    h.onlyStack hremoved (m.sameRegions_removed _ _) fun i _ hi => ?_, hremoved.decodes⟩
  show (moved _ _ _ _)[i]? = _
  rw [getElem?_moved _ _ _ _ _ (by show _ ≤ m.size; omega) (by show _ ≤ m.size; omega),
    if_neg (by omega)]

theorem unwindTo_restacked {k address : Nat} {frame : Frame}
    (hk : m.frames[k]? = some (address, frame)) :
    ({ m with stackTop := address } : Memory).Sound l (frames.drop k) ∧
      m.Restacked { m with stackTop := address } (frames.drop k) := by
  obtain ⟨before, after, rfl, rfl, -, he, -⟩ := h.exists_split hk
  rw [he]
  exact ⟨h.unwound, h.onlyStack h.unwound ⟨rfl, rfl, rfl, rfl⟩ fun _ _ _ => rfl, h.unwound.decodes⟩

theorem unwindPast_restacked {k address : Nat} {frame : Frame}
    (hk : m.frames[k]? = some (address, frame)) :
    Memory.unwindPast address m = .ok (some frame) { m with stackTop := address + frame.size } ∧
      ({ m with stackTop := address + frame.size } : Memory).Sound l (frames.drop (k + 1)) ∧
      m.Restacked { m with stackTop := address + frame.size } (frames.drop (k + 1)) := by
  obtain ⟨before, after, rfl, rfl, -, -, he⟩ := h.exists_split hk
  rw [he]
  exact ⟨unwindPast_eq h.stack, h.dropped, h.onlyStack h.dropped ⟨rfl, rfl, rfl, rfl⟩
    fun _ _ _ => rfl,
    h.dropped.decodes⟩

theorem pushFrame_ends {frame : Frame} (hf : frame.Plain) :
    Ends (pushFrame frame m) (fun _ m' => m'.Sound l (frame :: frames)) fun _ m' =>
      m'.Sound l frames := by
  by_cases hfull : m.stackTop < m.stackLimit + frame.size
  · rw [pushFrame_full hfull]
    exact h
  · rw [pushFrame_eq hfull h.layout.top_le]
    exact h.pushed hf.savable hfull

theorem upsert_ends (number : UInt16) (text : List UInt8) :
    Ends (upsert number text m) (fun edit m' => ∃ l', m'.Sound l' (edit.unstack frames)) fun _ m' =>
      m'.Sound l frames := by
  by_cases ha : m.Accepts number text
  · obtain ⟨edit, m', hmerge, hsound, -⟩ := upsert_merged h ha
    rw [hmerge]
    exact ⟨_, hsound⟩
  · obtain ⟨e, herror⟩ := upsert_error h.layout ha
    rw [herror]
    exact h

theorem controlStack : m.ControlStack frames := by
  refine ⟨h.decodes, fun frame hplain => ?_, h.find?_eq (!·.isLoop),
    fun v => h.find?_eq (·.isLoopOver v),
    fun k address frame hk => ?_, fun k address frame hk => ?_, fun k address frame hk => ?_⟩
  · have htop := h.stack.top_add
    have hlimit := h.layout.limit_le
    split
    case isTrue hfull => exact pushFrame_full (by omega)
    case isFalse hroom =>
      have hr : ¬ m.stackTop < m.stackLimit + frame.size := by omega
      exact ⟨_, pushFrame_eq hr h.layout.top_le, h.push_restacked hplain.savable hr⟩
  · obtain ⟨hrun, -, hrestacked⟩ := h.remove_restacked hk
    exact ⟨_, hrun, hrestacked⟩
  · exact ⟨_, rfl, (h.unwindTo_restacked hk).2⟩
  · obtain ⟨hrun, -, hrestacked⟩ := h.unwindPast_restacked hk
    exact ⟨_, hrun, hrestacked⟩

end
end Sound

/-- The buffers that the operations of a program lead to from the first one, each with the frames
that are on its list: the operations of the stack are used at the addresses that a search of it
gives. -/
inductive Stacked (first : Memory) : Memory → List Frame → Prop
  | start : Stacked first first (first.frames.map Prod.snd)
  | push {m m' : Memory} {frames : List Frame} {frame : Frame} : Stacked first m frames →
    frame.Plain →
      pushFrame frame m = .ok () m' → Stacked first m' (frame :: frames)
  | full {m m' : Memory} {frames : List Frame} {frame : Frame} {h : Halt} : Stacked first m frames →
    frame.Plain →
      pushFrame frame m = .error h m' → Stacked first m' frames
  | remove {m m' : Memory} {frames : List Frame} {k address : Nat} {frame : Frame}
    {gone : Option Frame} :
      Stacked first m frames → m.frames[k]? = some (address, frame) →
      removeFrame address m = .ok gone m' → Stacked first m' (frames.eraseIdx k)
  | unwindTo {m m' : Memory} {frames : List Frame} {k address : Nat} {frame : Frame} :
      Stacked first m frames → m.frames[k]? = some (address, frame) →
      Memory.unwindTo address m = .ok () m' → Stacked first m' (frames.drop k)
  | unwindPast {m m' : Memory} {frames : List Frame} {k address : Nat} {frame : Frame}
    {gone : Option Frame} :
      Stacked first m frames → m.frames[k]? = some (address, frame) →
      Memory.unwindPast address m = .ok gone m' → Stacked first m' (frames.drop (k + 1))
  | clearStack {m m' : Memory} {frames : List Frame} : Stacked first m frames →
      Memory.clearStack m = .ok () m' → Stacked first m' []
  | clearProgram {m m' : Memory} {frames : List Frame} : Stacked first m frames →
      Memory.clearProgram m = .ok () m' → Stacked first m' frames
  | clear {m m' : Memory} {frames : List Frame} : Stacked first m frames →
      Memory.clear m = .ok () m' → Stacked first m' []
  | store {m m' : Memory} {frames : List Frame} {v : Variable} {x : Int16} :
    Stacked first m frames →
      Memory.store v x m = .ok () m' → Stacked first m' frames
  | upsert {m m' : Memory} {frames : List Frame} {number : UInt16} {text : List UInt8}
    {edit : Edit} :
      Stacked first m frames → Memory.upsert number text m = .ok edit m' →
      Stacked first m' (edit.unstack frames)
  | refuse {m m' : Memory} {frames : List Frame} {number : UInt16} {text : List UInt8} {h : Halt} :
      Stacked first m frames → Memory.upsert number text m = .error h m' → Stacked first m' frames

/-- The frames of the list are those that the control stack holds. -/
theorem Stacked.exists_sound (h : Stacked first m frames)
    (hfirst : ∃ l frames, first.Sound l frames) :
    ∃ l, m.Sound l frames := by
  -- Every operation has one result; what it leaves is known where it goes through and where it is
  -- refused.
  induction h with
  | start =>
    obtain ⟨l, frames, hfirst⟩ := hfirst
    rw [hfirst.decodes.frames_eq]
    exact ⟨l, hfirst⟩
  | push _ hplain hrun ih =>
    obtain ⟨l, hs⟩ := ih
    have hends := hs.pushFrame_ends hplain
    rw [hrun] at hends
    exact ⟨l, hends⟩
  | full _ hplain hrun ih =>
    obtain ⟨l, hs⟩ := ih
    have hends := hs.pushFrame_ends hplain
    rw [hrun] at hends
    exact ⟨l, hends⟩
  | remove _ hk hrun ih =>
    obtain ⟨l, hs⟩ := ih
    obtain ⟨hremove, hsound, -⟩ := hs.remove_restacked hk
    rw [hremove] at hrun
    cases hrun
    exact ⟨l, hsound⟩
  | unwindTo _ hk hrun ih =>
    obtain ⟨l, hs⟩ := ih
    cases hrun
    exact ⟨l, (hs.unwindTo_restacked hk).1⟩
  | unwindPast _ hk hrun ih =>
    obtain ⟨l, hs⟩ := ih
    obtain ⟨hunwind, hsound, -⟩ := hs.unwindPast_restacked hk
    rw [hunwind] at hrun
    cases hrun
    exact ⟨l, hsound⟩
  | clearStack _ hrun ih =>
    obtain ⟨l, hs⟩ := ih
    cases hrun
    exact ⟨l, hs.unstacked⟩
  | clearProgram _ hrun ih =>
    obtain ⟨l, hs⟩ := ih
    cases hrun
    exact ⟨.empty, hs.unlined⟩
  | clear _ hrun ih =>
    obtain ⟨l, hs⟩ := ih
    rw [clear_eq hs.layout] at hrun
    obtain ⟨-, rfl⟩ := EStateM.Result.ok.inj hrun
    exact ⟨.empty, hs.cleared⟩
  | store _ hrun ih =>
    obtain ⟨l, hs⟩ := ih
    rw [store_eq _ _ hs.layout] at hrun
    cases hrun
    exact ⟨l, hs.stored _ _⟩
  | @upsert m m' frames number text edit _ hrun ih =>
    obtain ⟨l, hs⟩ := ih
    have hends := hs.upsert_ends number text
    rw [hrun] at hends
    exact hends
  | @refuse m m' frames number text h _ hrun ih =>
    obtain ⟨l, hs⟩ := ih
    have hends := hs.upsert_ends number text
    rw [hrun] at hends
    exact ⟨l, hends⟩

theorem Stacked.controlStack (h : Stacked first m frames)
    (hfirst : ∃ l frames, first.Sound l frames) :
    m.ControlStack frames := by
  obtain ⟨l, hs⟩ := h.exists_sound hfirst
  exact hs.controlStack

end Memory
end LineBasic
