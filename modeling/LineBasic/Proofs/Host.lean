import LineBasic.Host.Script
import LineBasic.Proofs.Outcome

namespace LineBasic
variable {σ τ ι α : Type}

/-- A host, with all bytes that have been written to it. -/
structure Recorded (σ : Type) where
  host : σ
  written : List UInt8 := []

namespace Recorded

def passing (operation : EStateM IoError σ α) : EStateM IoError (Recorded σ) α :=
  fun ⟨host, written⟩ =>
    match operation host with
    | .ok a host => .ok a ⟨host, written⟩
    | .error e host => .error e ⟨host, written⟩

instance [Host σ] : Host (Recorded σ) where
  read := passing Host.read
  poll := passing Host.poll
  write b := fun ⟨host, written⟩ =>
    match Host.write b host with
    | .ok _ host => .ok () ⟨host, written ++ [b]⟩
    | .error e host => .error e ⟨host, written⟩

theorem read_eq [Host σ] {recorded : Recorded σ} {host : σ} {b : UInt8}
    (h : Host.read recorded.host = .ok b host) :
    Host.read recorded = .ok b ⟨host, recorded.written⟩ := by
  simp only [Host.read, passing, h]

end Recorded

/-- These bytes have been written to the host, one after the other. -/
inductive Wrote [Host σ] : List UInt8 → σ → σ → Prop
  | nil (h : σ) : Wrote [] h h
  | cons {b : UInt8} {rest : List UInt8} {h h' h'' : σ} (hb : Host.write b h = .ok () h')
      (hr : Wrote rest h' h'') : Wrote (b :: rest) h h''

/-- The host has failed to write one of these bytes, and those before it have been written. -/
def FailedAt [Host σ] (bytes : List UInt8) (e : IoError) (h h' : σ) : Prop :=
  ∃ out b mid, out ++ [b] <+: bytes ∧ Wrote out h mid ∧ Host.write b mid = .error e h'

/-- What an action has written that stops: these bytes, unless it was the host that failed. -/
def WroteUntil [Host σ] (cause : Halt) (bytes : List UInt8) (h h' : σ) : Prop :=
  match cause with
  | .io e => FailedAt bytes e h h'
  | .error _ | .fault _ => Wrote bytes h h'

section
variable [Host σ] {h h' h'' : σ} {bytes more : List UInt8} {e : IoError} {cause : Halt}

theorem Wrote.append (hw : Wrote bytes h h') (hw' : Wrote more h' h'') :
    Wrote (bytes ++ more) h h'' := by
  induction hw with
  | nil => exact hw'
  | cons hb _ ih => exact .cons hb (ih hw')

theorem FailedAt.append (hf : FailedAt bytes e h h') (more : List UInt8) :
    FailedAt (bytes ++ more) e h h' := by
  obtain ⟨out, b, mid, hprefix, hw, hb⟩ := hf
  exact ⟨out, b, mid, hprefix.trans (List.prefix_append _ _), hw, hb⟩

theorem Wrote.failedAt (hw : Wrote bytes h h') (hf : FailedAt more e h' h'') :
    FailedAt (bytes ++ more) e h h'' := by
  obtain ⟨out, b, mid, hprefix, hout, hb⟩ := hf
  refine ⟨bytes ++ out, b, mid, ?_, hw.append hout, hb⟩
  rw [List.append_assoc]
  exact (List.prefix_append_right_inj bytes).2 hprefix

theorem Wrote.until (hw : Wrote bytes h h') (hu : WroteUntil cause more h' h'') :
    WroteUntil cause (bytes ++ more) h h'' := by
  cases cause with
  | io e => exact hw.failedAt hu
  | error e => exact hw.append hu
  | fault f => exact hw.append hu

end

/-- What holds between a host and itself, across two stretches, and from before a byte is written to
after it: it holds between hosts of which the second is the first after it has been written to. -/
class Unasked [Host σ] (R : σ → σ → Prop) : Prop where
  refl (h : σ) : R h h
  trans {h h' h'' : σ} : R h h' → R h' h'' → R h h''
  write (b : UInt8) (h : σ) : R h (final (Host.write b h))

section
variable [Host σ] {R : σ → σ → Prop} [Unasked R] {h h' : σ} {bytes : List UInt8} {cause : Halt}

theorem Wrote.unasked (hw : Wrote bytes h h') : R h h' := by
  induction hw with
  | nil => exact Unasked.refl _
  | @cons b _ h _ _ hb _ ih =>
    have hwrite := Unasked.write (R := R) b h
    rw [hb] at hwrite
    exact Unasked.trans hwrite ih

theorem FailedAt.unasked {e : IoError} (hf : FailedAt bytes e h h') : R h h' := by
  obtain ⟨out, b, mid, -, hout, hb⟩ := hf
  have hwrite := Unasked.write (R := R) b mid
  rw [hb] at hwrite
  exact Unasked.trans hout.unasked hwrite

theorem WroteUntil.unasked (hu : WroteUntil cause bytes h h') : R h h' := by
  cases cause with
  | io e => exact FailedAt.unasked hu
  | error e => exact Wrote.unasked hu
  | fault f => exact Wrote.unasked hu

end

namespace Recorded
variable [Host σ] {h h' : Recorded σ} {bytes : List UInt8} {b : UInt8} {cause : Halt}

theorem written_of_write (hb : Host.write b h = .ok () h') : h'.written = h.written ++ [b] := by
  obtain ⟨host, written⟩ := h
  simp only [Host.write] at hb
  cases hw : Host.write b host with
  | ok u host' =>
    rw [hw] at hb
    cases hb
    rfl
  | error e host' =>
    rw [hw] at hb
    cases hb

/-- A byte that the host fails to write is not recorded. -/
theorem written_of_error {e : IoError} (hb : Host.write b h = .error e h') :
    h'.written = h.written := by
  obtain ⟨host, written⟩ := h
  simp only [Host.write] at hb
  cases hw : Host.write b host with
  | ok u host' =>
    rw [hw] at hb
    cases hb
  | error e host' =>
    rw [hw] at hb
    cases hb
    rfl

theorem written_eq (hw : Wrote bytes h h') : h'.written = h.written ++ bytes := by
  induction hw with
  | nil => exact (List.append_nil _).symm
  | cons hb _ ih => rw [ih, written_of_write hb, List.append_assoc, List.singleton_append]

theorem exists_written_of_failedAt {e : IoError} (hf : FailedAt bytes e h h') :
    ∃ out, out <+: bytes ∧ h'.written = h.written ++ out := by
  obtain ⟨out, b, mid, hprefix, hout, hb⟩ := hf
  refine ⟨out, (List.prefix_append _ _).trans hprefix, ?_⟩
  rw [written_of_error hb, written_eq hout]

end Recorded

def Mirrored (R : σ → τ → Prop) (operation : EStateM IoError σ α)
    (operation' : EStateM IoError τ α) : Prop :=
  ∀ h k, R h k → Pairs (operation h) (operation' k) (fun _ => R) fun _ => R

/-- Two related hosts cannot be told apart by what they read, poll and write. -/
structure Mirrors [Host σ] [Host τ] (R : σ → τ → Prop) : Prop where
  read : Mirrored R Host.read Host.read
  poll : Mirrored R Host.poll Host.poll
  write (b : UInt8) : Mirrored R (Host.write b) (Host.write b)

/-- What a host reads and polls comes from its input alone, and all writes go through. -/
structure Deaf [Host σ] (input : σ → ι) : Prop where
  read : Mirrored (fun h k => input h = input k) (Host.read : EStateM IoError σ UInt8) Host.read
  poll : Mirrored (fun h k => input h = input k) (Host.poll : EStateM IoError σ Bool) Host.poll
  write (b : UInt8) (h : σ) : ∃ h', Host.write b h = .ok () h' ∧ input h' = input h

theorem Mirrored.refl (operation : EStateM IoError σ α) : Mirrored Eq operation operation := by
  rintro h k rfl
  cases operation h with
  | ok a h' => exact ⟨rfl, rfl⟩
  | error e h' => exact ⟨rfl, rfl⟩

section
variable [Host σ]

theorem Mirrors.refl : Mirrors (Eq : σ → σ → Prop) :=
  ⟨.refl _, .refl _, fun _ => .refl _⟩

theorem Deaf.mirrors {input : σ → ι} (h : Deaf input) :
    Mirrors fun h k : σ => input h = input k := by
  refine ⟨h.read, h.poll, fun b h₁ h₂ he => ?_⟩
  obtain ⟨h₁', hw₁, hi₁⟩ := h.write b h₁
  obtain ⟨h₂', hw₂, hi₂⟩ := h.write b h₂
  exact .of_ok hw₁ hw₂ (hi₁.trans (he.trans hi₂.symm))

end

theorem Script.deaf : Deaf Script.input := by
  refine ⟨?_, ?_, fun b script => ⟨⟨script.input, script.output.push b⟩, rfl, rfl⟩⟩
  · rintro ⟨input, output⟩ ⟨input', output'⟩ rfl
    cases input with
    | nil => exact ⟨rfl, rfl⟩
    | cons b rest => exact ⟨rfl, rfl⟩
  · rintro ⟨input, output⟩ ⟨input', output'⟩ rfl
    exact ⟨rfl, rfl⟩

/-- The host reads these bytes next, and then this is its input. -/
def Supplies [Host σ] (input : σ → ι) (after : ι) : List UInt8 → σ → Prop
  | [], host => input host = after
  | b :: rest, host => ∃ host', Host.read host = .ok b host' ∧ Supplies input after rest host'

theorem Deaf.supplies [Host σ] {input : σ → ι} (h : Deaf input) {after : ι} {bytes : List UInt8}
    {host host' : σ} (he : input host = input host') (hs : Supplies input after bytes host) :
    Supplies input after bytes host' := by
  induction bytes generalizing host host' with
  | nil => exact he.symm.trans hs
  | cons b rest ih =>
    obtain ⟨next, hr, hs⟩ := hs
    obtain ⟨b', next, next', hr₁, hr', he'⟩ | ⟨e, next, next', hr₁, -⟩ :=
      (h.read host host' he).exists_results
    · rw [hr] at hr₁
      cases hr₁
      exact ⟨next', hr', ih he' hs⟩
    · rw [hr] at hr₁
      cases hr₁

theorem Deaf.supplies_append [Host σ] {input : σ → ι} (h : Deaf input) {after : ι}
    (front back : List UInt8) {host : σ} (hs : Supplies input after (front ++ back) host) :
    ∃ mid, Supplies input mid front host ∧ ∀ host', input host' = mid →
    Supplies input after back host' := by
  induction front generalizing host with
  | nil => exact ⟨input host, rfl, fun host' he => h.supplies he.symm hs⟩
  | cons b front ih =>
    obtain ⟨next, hr, hs⟩ := hs
    obtain ⟨mid, hfront, hback⟩ := ih hs
    exact ⟨mid, ⟨next, hr, hfront⟩, hback⟩

theorem Script.supplies (bytes after : List UInt8) (output : Array UInt8) :
    Supplies Script.input after bytes ⟨bytes ++ after, output⟩ := by
  induction bytes with
  | nil => rfl
  | cons b rest ih => exact ⟨_, rfl, ih⟩

namespace Recorded
variable {R : σ → τ → Prop} {before before' : List UInt8}

/-- The hosts are related, and the same has been written to both after what had been written before.
-/
def Beside (R : σ → τ → Prop) (before before' : List UInt8) (h : Recorded σ) (k : Recorded τ) :
    Prop :=
  R h.host k.host ∧ ∃ out, h.written = before ++ out ∧ k.written = before' ++ out

theorem mirrored_passing {operation : EStateM IoError σ α} {operation' : EStateM IoError τ α}
    (h : Mirrored R operation operation') :
    Mirrored (Beside R before before') (passing operation) (passing operation') := by
  rintro ⟨h₁, w₁⟩ ⟨h₂, w₂⟩ ⟨hR, hw⟩
  simp only [passing]
  obtain ⟨a, h₁', h₂', hr, hr', hR'⟩ | ⟨e, h₁', h₂', hr, hr', hR'⟩ := (h h₁ h₂ hR).exists_results
  · rw [hr, hr']
    exact ⟨rfl, hR', hw⟩
  · rw [hr, hr']
    exact ⟨rfl, hR', hw⟩

theorem mirrors_beside [Host σ] [Host τ] (before before' : List UInt8) (h : Mirrors R) :
    Mirrors (Beside R before before') := by
  refine ⟨mirrored_passing h.read, mirrored_passing h.poll, fun b => ?_⟩
  rintro ⟨h₁, w₁⟩ ⟨h₂, w₂⟩ ⟨hR, out, hw₁, hw₂⟩
  dsimp only at hw₁ hw₂
  simp only [Host.write]
  obtain ⟨a, h₁', h₂', hr, hr', hR'⟩ | ⟨e, h₁', h₂', hr, hr', hR'⟩ :=
    (h.write b h₁ h₂ hR).exists_results
  · rw [hr, hr']
    refine ⟨rfl, hR', out ++ [b], ?_, ?_⟩
    · rw [hw₁, List.append_assoc]
    · rw [hw₂, List.append_assoc]
  · rw [hr, hr']
    exact ⟨rfl, hR', out, hw₁, hw₂⟩

end Recorded
end LineBasic
