import LineBasic.Proofs.Host

namespace LineBasic
variable {σ α : Type}

inductive HostEvent
  | read (answer : Except IoError UInt8)
  | polled (answer : Except IoError Bool)
  | wrote (b : UInt8) (answer : Except IoError Unit)

namespace HostEvent

def isRead : HostEvent → Bool
  | read _ => true
  | _ => false

def isPoll : HostEvent → Bool
  | polled _ => true
  | _ => false

/-- These bytes were written. -/
def written (bytes : List UInt8) : List HostEvent :=
  bytes.map (wrote · (.ok ()))

end HostEvent

/-- A host, with all that it has been asked, the latest last. -/
structure Traced (σ : Type) where
  host : σ
  events : List HostEvent := []

namespace Traced

def tracing (event : Except IoError α → HostEvent) (operation : EStateM IoError σ α) :
    EStateM IoError (Traced σ) α :=
  fun ⟨host, events⟩ =>
    match operation host with
    | .ok a host => .ok a ⟨host, events ++ [event (.ok a)]⟩
    | .error e host => .error e ⟨host, events ++ [event (.error e)]⟩

instance [Host σ] : Host (Traced σ) where
  read := tracing .read Host.read
  poll := tracing .polled Host.poll
  write b := tracing (.wrote b) (Host.write b)

theorem tracing_ends (event : Except IoError α → HostEvent) (operation : EStateM IoError σ α)
    (h : Traced σ) :
    Ends (tracing event operation h) (fun a h' => h'.events = h.events ++ [event (.ok a)])
      fun e h' => h'.events = h.events ++ [event (.error e)] := by
  obtain ⟨host, events⟩ := h
  unfold tracing
  dsimp only
  cases operation host with
  | ok a host' => exact rfl
  | error e host' => exact rfl

def polls (h : Traced σ) : Nat :=
  h.events.countP HostEvent.isPoll

def reads (h : Traced σ) : Nat :=
  h.events.countP HostEvent.isRead

section
variable {h h' : Traced σ} {out : List HostEvent} (he : h'.events = h.events ++ out)
include he

theorem polls_append : h'.polls = h.polls + out.countP HostEvent.isPoll := by
  rw [polls, he, List.countP_append]
  rfl

theorem reads_append : h'.reads = h.reads + out.countP HostEvent.isRead := by
  rw [reads, he, List.countP_append]
  rfl

end

def FailsWriting (h : Traced σ) (bytes : List UInt8) (e : IoError) (h' : Traced σ) : Prop :=
  ∃ out b, out ++ [b] <+: bytes ∧ h'.events = h.events ++
    (HostEvent.written out ++ [.wrote b (.error e)])

section
variable [Host σ] {h h' : Traced σ} {bytes : List UInt8}

theorem events_eq (hw : Wrote bytes h h') : h'.events = h.events ++ HostEvent.written bytes := by
  induction hw with
  | nil => exact (List.append_nil _).symm
  | @cons b rest h _ _ hb _ ih =>
    have hends := tracing_ends (.wrote b) (Host.write b) h
    rw [show tracing (.wrote b) (Host.write b) h = _ from hb] at hends
    rw [ih, show _ = h.events ++ _ from hends, List.append_assoc]
    rfl

theorem failsWriting {e : IoError} (hf : FailedAt bytes e h h') : h.FailsWriting bytes e h' := by
  obtain ⟨out, b, mid, hprefix, hw, hb⟩ := hf
  have hends := tracing_ends (.wrote b) (Host.write b) mid
  rw [show tracing (.wrote b) (Host.write b) mid = _ from hb] at hends
  refine ⟨out, b, hprefix, ?_⟩
  rw [show h'.events = mid.events ++ _ from hends, events_eq hw, List.append_assoc]

end

def OnlyWritten (h h' : Traced σ) : Prop :=
  ∃ out : List HostEvent, (∀ event ∈ out, ∃ b answer, event = .wrote b answer) ∧
    h'.events = h.events ++ out

namespace OnlyWritten
variable {h h' h'' : Traced σ}

theorem refl (h : Traced σ) : OnlyWritten h h :=
  ⟨[], fun _ hm => absurd hm List.not_mem_nil, (List.append_nil _).symm⟩

theorem trans (hw : OnlyWritten h h') (hw' : OnlyWritten h' h'') : OnlyWritten h h'' := by
  obtain ⟨out, hout, he⟩ := hw
  obtain ⟨out', hout', he'⟩ := hw'
  exact ⟨out ++ out', List.forall_mem_append.2 ⟨hout, hout'⟩, by rw [he', he, List.append_assoc]⟩

theorem write [Host σ] (b : UInt8) (h : Traced σ) : OnlyWritten h (final (Host.write b h)) := by
  have hone {answer : Except IoError Unit} {h' : Traced σ}
    (he : h'.events = h.events ++ [.wrote b answer]) :
      OnlyWritten h h' :=
    ⟨[.wrote b answer], List.forall_mem_singleton.2 ⟨b, answer, rfl⟩, he⟩
  have hends := tracing_ends (.wrote b) (Host.write b) h
  show OnlyWritten h (final (tracing (.wrote b) (Host.write b) h))
  cases hr : tracing (.wrote b) (Host.write b) h with
  | ok u h' =>
    rw [hr] at hends
    exact hone hends
  | error e h' =>
    rw [hr] at hends
    exact hone hends

theorem countP_eq (hw : OnlyWritten h h') {p : HostEvent → Bool}
    (hp : ∀ b answer, p (.wrote b answer) = false) :
    h'.events.countP p = h.events.countP p := by
  obtain ⟨out, hout, he⟩ := hw
  have hnone : out.countP p = 0 := by
    rw [List.countP_eq_zero]
    intro event hm
    obtain ⟨b, answer, rfl⟩ := hout event hm
    rw [hp]
    exact Bool.false_ne_true
  rw [he, List.countP_append, hnone, Nat.add_zero]

theorem polls_eq (hw : OnlyWritten h h') : h'.polls = h.polls :=
  hw.countP_eq fun _ _ => rfl

theorem reads_eq (hw : OnlyWritten h h') : h'.reads = h.reads :=
  hw.countP_eq fun _ _ => rfl

end OnlyWritten

instance [Host σ] : Unasked (OnlyWritten (σ := σ)) where
  refl := .refl
  trans := .trans
  write := .write

end Traced
end LineBasic
