import LineBasic.Proofs.Session.Effect

namespace LineBasic.Session
variable {σ α β : Type}

/-- The result of an action that shows these bytes: all of them whether it goes on or fails, and the
first of them where the host fails. -/
def Shows (s : Session (Recorded σ)) (bytes : List UInt8) (ok : α → Interpreter → Prop)
    (fails : Error → Interpreter → Prop) (r : EStateM.Result Halt (Session (Recorded σ)) α) :
    Prop :=
  Ends r (fun a t => ok a t.interpreter ∧ t.host.written = s.host.written ++ bytes) fun cause t =>
    (∃ e, cause = .error e ∧ fails e t.interpreter ∧ t.host.written = s.host.written ++ bytes) ∨
      (∃ e, cause = .io e) ∧ ∃ out, out <+: bytes ∧ t.host.written = s.host.written ++ out

section
variable {s t : Session (Recorded σ)} {bytes rest : List UInt8}
  {ok mid : α → Interpreter → Prop} {ok' : β → Interpreter → Prop}
  {fails : Error → Interpreter → Prop} {x : Act (Recorded σ) α} {f : α → Act (Recorded σ) β}

theorem Shows.bind (hx : Shows s bytes mid (fun _ _ => False) (x s))
    (hf : ∀ a t, mid a t.interpreter → Shows t rest ok' fails (f a t)) :
    Shows s (bytes ++ rest) ok' fails ((x >>= f) s) := by
  refine Ends.bind (hx.mono (fun _ _ h => h) fun cause t h => ?_) fun a t h => ?_
  · obtain ⟨e, -, hno, -⟩ | ⟨hio, out, hout, hwritten⟩ := h
    · exact hno.elim
    · exact Or.inr ⟨hio, out, hout.trans (List.prefix_append _ _), hwritten⟩
  · obtain ⟨hmid, hw⟩ := h
    refine (hf a t hmid).mono (fun b u h' => ⟨h'.1, ?_⟩) fun cause u h' => ?_
    · rw [h'.2, hw, List.append_assoc]
    · obtain ⟨e, he, hfails, hwritten⟩ | ⟨hio, out, hout, hwritten⟩ := h'
      · exact Or.inl ⟨e, he, hfails, by rw [hwritten, hw, List.append_assoc]⟩
      · exact Or.inr ⟨hio, bytes ++ out, (List.prefix_append_right_inj _).2 hout,
          by rw [hwritten, hw, List.append_assoc]⟩

theorem Shows.bind_ok (hx : Shows s bytes mid (fun _ _ => False) (x s))
    (hf : ∀ a t, mid a t.interpreter → ∃ b u, f a t = .ok b u ∧ ok' b u.interpreter ∧
      u.host.written = t.host.written) :
    Shows s bytes ok' fails ((x >>= f) s) := by
  have hall : Shows s (bytes ++ []) ok' fails ((x >>= f) s) := hx.bind fun a t hmid => by
    obtain ⟨b, u, hr, hok, hw⟩ := hf a t hmid
    exact Ends.of_ok hr ⟨hok, by rw [hw, List.append_nil]⟩
  rwa [List.append_nil] at hall

theorem Shows.bind_fails (hx : Shows s bytes (fun _ _ => False) fails (x s)) :
    Shows s bytes ok' fails ((x >>= f) s) :=
  Ends.bind hx fun _ _ h => absurd h.1 id

theorem Shows.of_written {r : EStateM.Result Halt (Session (Recorded σ)) β}
    (h : Shows t bytes ok' fails r) (hw : t.host.written = s.host.written) :
    Shows s bytes ok' fails r := by
  unfold Shows at h ⊢
  rwa [hw] at h

theorem Shows.after {a : α} (hx : x s = .ok a t) (hw : t.host.written = s.host.written)
    (hf : Shows t bytes ok' fails (f a t)) : Shows s bytes ok' fails ((x >>= f) s) := by
  rw [bind_of_ok hx]
  exact hf.of_written hw

end

section
variable [Host σ]

theorem Prints.shows {bytes : List UInt8} {act : Act (Recorded σ) α} (h : Prints bytes act)
    (s : Session (Recorded σ)) :
    Shows s bytes (fun _ i => i = s.interpreter) (fun _ _ => False) (act s) := by
  refine (h s).mono (fun _ _ h => ⟨h.1, Recorded.written_eq h.2⟩) fun cause t h => Or.inr ?_
  obtain ⟨-, e, hcause, hfailed⟩ := h
  obtain ⟨out, hout, hwritten⟩ := Recorded.exists_written_of_failedAt hfailed
  exact ⟨⟨e, hcause⟩, out, hout, hwritten⟩

theorem shows_print (bytes : List UInt8) (s : Session (Recorded σ)) :
    Shows s bytes (fun _ i => i = s.interpreter) (fun _ _ => False) (print bytes s) :=
  (prints_print bytes).shows s

theorem shows_writeByte (b : UInt8) (s : Session (Recorded σ)) :
    Shows s [b] (fun _ i => i = s.interpreter) (fun _ _ => False) (writeByte b s) :=
  (prints_writeByte b).shows s

end
end LineBasic.Session
