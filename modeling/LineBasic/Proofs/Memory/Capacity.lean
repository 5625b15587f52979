import LineBasic.Proofs.Memory.Sound
import Mathlib.Algebra.Group.Nat.Defs

namespace LineBasic.Memory
variable {m : Memory} {frames : List Frame}

/-- Pushes frames one after the other until one has no room. -/
def pushFrames : List Frame → Update Unit
  | [] => return
  | frame :: rest => do
    pushFrame frame
    pushFrames rest

/-- How many loops the room for the control stack holds. -/
def loopCapacity (m : Memory) : Nat :=
  (m.size - m.stackLimit) / loopFrameSize

/-- Frames take their bytes from the top of the stack. The first that would reach below the limit is
refused, and those before it stay. -/
theorem pushFrames_ends (frames : List Frame) (hl : m.stackLimit ≤ m.stackTop)
    (ht : m.stackTop ≤ m.size) :
    Ends (pushFrames frames m)
      (fun _ m' => m.SameRegions m' ∧ m.stackLimit ≤ m'.stackTop ∧
        m'.stackTop + depth frames = m.stackTop)
      fun h m' => h = .error (.exhausted .stackOverflow) ∧ m.SameRegions m' ∧
        m.stackLimit ≤ m'.stackTop ∧
        ∃ pushed frame rest, frames = pushed ++ frame :: rest ∧
        m'.stackTop + depth pushed = m.stackTop ∧
          m'.stackTop < m.stackLimit + frame.size := by
  -- On the frames, with the buffer as it is after those before: every push keeps the regions, so
  -- the limit is fixed.
  induction frames generalizing m with
  | nil => exact ⟨⟨rfl, rfl, rfl, rfl⟩, hl, rfl⟩
  | cons frame rest ih =>
    by_cases hfull : m.stackTop < m.stackLimit + frame.size
    · refine Ends.after_error (pushFrame_full hfull) ?_
      exact ⟨rfl, ⟨rfl, rfl, rfl, rfl⟩, hl, [], frame, rest, rfl, rfl, hfull⟩
    · have hpushed := m.sameRegions_pushed frame
      have htop : (m.pushed frame).stackTop = m.stackTop - frame.size := rfl
      have hrest := ih (m := m.pushed frame) (by rw [hpushed.stackLimit_eq]; omega)
        (by rw [hpushed.size_eq]; omega)
      rw [hpushed.stackLimit_eq, htop] at hrest
      refine Ends.after_ok (pushFrame_eq hfull ht) (hrest.mono ?_ ?_)
      · rintro _ m' ⟨hregions, hlimit, hdepth⟩
        refine ⟨hpushed.trans hregions, hlimit, ?_⟩
        rw [depth_cons]
        omega
      · rintro _ m' ⟨rfl, hregions, hlimit, pushed, last, others, rfl, hdepth, hlast⟩
        refine ⟨rfl, hpushed.trans hregions, hlimit, frame :: pushed, last, others, rfl, ?_, hlast⟩
        rw [depth_cons]
        omega

theorem size_of_isLoop {frame : Frame} (h : frame.isLoop = true) : frame.size = loopFrameSize := by
  cases frame with
  | gosub line pos => cases h
  | loop counter terminal step line pos => rfl

theorem depth_loops (h : ∀ frame ∈ frames, frame.isLoop = true) :
    depth frames = loopFrameSize * frames.length := by
  induction frames with
  | nil => rfl
  | cons frame rest ih =>
    obtain ⟨hframe, hrest⟩ := List.forall_mem_cons.1 h
    rw [depth_cons, size_of_isLoop hframe, ih hrest, List.length_cons, Nat.mul_succ, Nat.add_comm]

/-- On an empty stack loops are pushed up to its capacity, and the next one is refused. -/
theorem pushFrames_loops (ht : m.stackTop = m.size) (hl : m.stackLimit ≤ m.size)
    (hloops : ∀ frame ∈ frames, frame.isLoop = true) :
    Ends (pushFrames frames m)
      (fun _ m' => frames.length ≤ m.loopCapacity ∧
        m'.stackDepth = .ok (loopFrameSize * frames.length))
      fun h m' => m.loopCapacity < frames.length ∧ h = .error (.exhausted .stackOverflow) ∧
        m'.stackDepth = .ok (loopFrameSize * m.loopCapacity) := by
  have hten : loopFrameSize = 10 := rfl
  refine (pushFrames_ends frames (ht ▸ hl) (Nat.le_of_eq ht)).mono ?_ ?_
  · rintro _ m' ⟨hregions, hlimit, hdepth⟩
    rw [depth_loops hloops, hten] at hdepth
    rw [loopCapacity, stackDepth, hregions.size_eq, hten, difference_of_le (by omega)]
    exact ⟨by omega, congrArg Except.ok (by omega)⟩
  · rintro _ m' ⟨rfl, hregions, hlimit, pushed, frame, rest, rfl, hdepth, hfull⟩
    obtain ⟨hpushed, hrest⟩ := List.forall_mem_append.1 hloops
    have hframe : frame.isLoop = true := hrest frame List.mem_cons_self
    have hsize : frame.size = 10 := size_of_isLoop hframe
    rw [depth_loops hpushed, hten] at hdepth
    rw [loopCapacity, stackDepth, hregions.size_eq, hten, difference_of_le (by omega),
      List.length_append,
      List.length_cons]
    exact ⟨by omega, rfl, congrArg Except.ok (by omega)⟩

/-- The room for frames in bytes, from what is asked for in loops. -/
theorem toNat_stackRoom (stackFrames : UInt64) :
    (max stackFrames 1 * 10).toNat = 10 * max stackFrames.toNat 1 % UInt64.size := by
  rw [UInt64.toNat_mul, toNat_atLeastOne, Nat.mul_comm]
  rfl

/-- The control stack of a new buffer. The room for it is ten bytes for each loop asked for, one at
least, and half of the buffer at most. Where ten bytes for each pass 64 bits, a build that catches
overflow allocates nothing; another counts them modulo 2^64, so that the room is the one asked for
exactly if the count is, or is still too large for the buffer, and is none where the count comes
out below ten. As many loops as the room holds can be pushed in a row, and no more. -/
theorem stack_capacity (overflow : Overflow) (ramSize stackFrames : UInt64) (frames : List Frame)
    (hloops : ∀ frame ∈ frames, frame.isLoop = true) :
    let asked := 10 * max stackFrames.toNat 1
    (overflow = .caught ∧ UInt64.size ≤ asked →
      allocate overflow ramSize stackFrames = .error ⟨asked, UInt64.size⟩) ∧
    (¬ (overflow = .caught ∧ UInt64.size ≤ asked) →
      ∃ m, allocate overflow ramSize stackFrames = .ok m ∧
        m.size = min (max ramSize.toNat minSize) maxSize ∧
        m.variablesBegin + 52 = m.stackLimit ∧
        m.stackLimit + min (asked % UInt64.size) (m.size / 2) = m.size ∧
        (asked < UInt64.size → m.stackLimit + min asked (m.size / 2) = m.size ∧
          1 ≤ m.loopCapacity) ∧
        (m.stackLimit + min asked (m.size / 2) = m.size ↔
          asked < UInt64.size ∨ m.size / 2 ≤ asked % UInt64.size) ∧
        (m.loopCapacity = 0 ↔ asked % UInt64.size < 10) ∧
        Ends (pushFrames frames m)
          (fun _ m' => frames.length ≤ m.loopCapacity ∧
            m'.stackDepth = .ok (loopFrameSize * frames.length))
          fun h m' => m.loopCapacity < frames.length ∧ h = .error (.exhausted .stackOverflow) ∧
            m'.stackDepth = .ok (loopFrameSize * m.loopCapacity)) := by
  intro asked
  rw [allocate_eq]
  refine ⟨fun hover => if_pos hover, fun hover => ⟨create ramSize stackFrames, if_neg hover, ?_⟩⟩
  generalize hm : create ramSize stackFrames = m
  have hlayout : m.Layout := hm ▸ layout_create ramSize stackFrames
  have hsize : m.size = min (max ramSize.toNat minSize) maxSize :=
    hm ▸ size_create ramSize stackFrames
  have htop : m.stackTop = m.size := by
    rw [hsize, ← hm]
    rfl
  have hge := hlayout.size_ge
  have hle := hlayout.size_le
  have hten : loopFrameSize = 10 := rfl
  have hlimit : m.stackLimit = m.size - min (asked % UInt64.size) (m.size / 2) := by
    rw [hsize, ← toNat_stackRoom, ← hm]
    rfl
  have hroom : m.stackLimit + min (asked % UInt64.size) (m.size / 2) = m.size := by omega
  refine ⟨hsize, hlayout.variables_add, hroom, fun hfits => ?_, ?_, ?_, ?_⟩
  · rw [Nat.mod_eq_of_lt hfits] at hroom
    have hasked : 10 ≤ asked := Nat.mul_le_mul_left 10 (Nat.le_max_right _ 1)
    rw [loopCapacity, hten]
    omega
  · by_cases hfits : asked < UInt64.size
    · rw [Nat.mod_eq_of_lt hfits] at hroom ⊢
      exact ⟨fun _ => Or.inl hfits, fun _ => hroom⟩
    · have hword : UInt64.size = 18446744073709551616 := rfl
      generalize asked % UInt64.size = counted at hroom ⊢
      omega
  · rw [loopCapacity, hten]
    omega
  · exact pushFrames_loops htop (by omega) hloops

set_option linter.constructorNameAsVariable false in
/-- Three loops in a row where there is room for two. -/
theorem stack_capacity_of_two :
    ∃ (m : Memory) (frames : List Frame), allocate .caught 1024 2 = .ok m ∧ m.loopCapacity = 2 ∧
      frames.length = 3 ∧ (∀ frame ∈ frames, frame.isLoop = true) ∧
      Ends (pushFrames frames m) (fun _ _ => False)
        fun h m' => h = .error (.exhausted .stackOverflow) ∧ m'.stackDepth = .ok 20 := by
  have hloops : ∀ frame ∈ [Frame.loop ⟨8⟩ 9 1 none 30, .loop ⟨9⟩ 5 (-1) (some 4) 7,
    .loop ⟨8⟩ 0 0 none 0],
      frame.isLoop = true := by
    decide
  have hasked : 10 * max (2 : UInt64).toNat 1 = 20 := by decide
  have hstack := stack_capacity .caught 1024 2 _ hloops
  rw [hasked] at hstack
  obtain ⟨m, hm, hsize, -, hroom, -, -, -, hpush⟩ := hstack.2 fun h => absurd h.2 (by decide)
  have hbytes : m.size = 1024 := hsize
  rw [show 20 % UInt64.size = 20 from rfl] at hroom
  have hcapacity : m.loopCapacity = 2 := by
    rw [loopCapacity, show loopFrameSize = 10 from rfl]
    omega
  rw [hcapacity] at hpush
  refine ⟨m, _, hm, hcapacity, rfl, hloops, hpush.mono ?_ ?_⟩
  · rintro _ m' ⟨hfits, -⟩
    exact absurd hfits (by decide)
  · rintro h m' ⟨-, rfl, hdepth⟩
    exact ⟨rfl, hdepth⟩

/-- Half of the buffer should be room for frames where ten times the loops asked for is four more
than 2^64. A build that catches overflow stops there; another leaves room for no loop. -/
theorem stack_capacity_overflows :
    min (10 * max (1844674407370955162 : UInt64).toNat 1) (1024 / 2) = 512 ∧
      allocate .caught 1024 1844674407370955162 = .error ⟨18446744073709551620, UInt64.size⟩ ∧
      ∃ m, allocate .wrapping 1024 1844674407370955162 = .ok m ∧ m.size = 1024 ∧
        m.size - m.stackLimit = 4 ∧ m.loopCapacity = 0 ∧
        pushFrame (.loop ⟨0⟩ 1 1 none 0) m = .error (.error (.exhausted .stackOverflow)) m := by
  have hasked : 10 * max (1844674407370955162 : UInt64).toNat 1 = 18446744073709551620 := by decide
  rw [allocate_eq, allocate_eq, hasked]
  refine ⟨by decide, if_pos ⟨rfl, by decide⟩, create 1024 1844674407370955162,
    if_neg fun h => absurd h.1 (by decide), size_create _ _, ?_, ?_, pushFrame_full (by decide)⟩
  · rw [size_create]
    decide
  · rw [loopCapacity, size_create]
    decide

end LineBasic.Memory
