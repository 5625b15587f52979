import LineBasic.Session.Basic

namespace LineBasic
variable {ε σ τ α β : Type}

/-- The result of an action meets `ok` if it goes on and `stop` if it stops short. -/
def Ends (r : EStateM.Result ε σ α) (ok : α → σ → Prop) (stop : ε → σ → Prop) : Prop :=
  match r with
  | .ok a s => ok a s
  | .error e s => stop e s

instance {r : EStateM.Result ε σ α} {ok : α → σ → Prop} {stop : ε → σ → Prop}
    [∀ a s, Decidable (ok a s)] [∀ e s, Decidable (stop e s)] : Decidable (Ends r ok stop) :=
  match r with
  | .ok a s => inferInstanceAs (Decidable (ok a s))
  | .error e s => inferInstanceAs (Decidable (stop e s))

/-- The result of an action whose state is bound by a condition, as in a condition on what a second
action does. -/
instance {x : EStateM ε σ α} {s : σ} {ok : α → σ → Prop} {stop : ε → σ → Prop}
    [∀ a s, Decidable (ok a s)] [∀ e s, Decidable (stop e s)] : Decidable (Ends (x s) ok stop) :=
  instDecidableEnds

/-- The state that an action leaves, whether it goes on or stops short. -/
def final : EStateM.Result ε σ α → σ
  | .ok _ s | .error _ s => s

@[simp]
theorem final_ok (a : α) (s : σ) : final (.ok a s : EStateM.Result ε σ α) = s := rfl

theorem bind_of_ok {x : EStateM ε σ α} {f : α → EStateM ε σ β} {s s' : σ} {a : α}
    (h : x s = .ok a s') : (x >>= f) s = f a s' := by
  simp only [bind, EStateM.bind, h]

theorem bind_of_error {x : EStateM ε σ α} {f : α → EStateM ε σ β} {s s' : σ} {e : ε}
    (h : x s = .error e s') : (x >>= f) s = .error e s' := by
  simp only [bind, EStateM.bind, h]

theorem exists_of_bind_ok {x : EStateM ε σ α} {f : α → EStateM ε σ β} {s s' : σ} {b : β}
    (h : (x >>= f) s = .ok b s') : ∃ a t, x s = .ok a t ∧ f a t = .ok b s' := by
  cases hx : x s with
  | ok a t =>
    rw [bind_of_ok hx] at h
    exact ⟨a, t, rfl, h⟩
  | error e t =>
    rw [bind_of_error hx] at h
    cases h

theorem bind_of_eq {x y : EStateM ε σ α} {f : α → EStateM ε σ β} {s s' : σ} (h : x s = y s') :
    (x >>= f) s = (y >>= f) s' := by
  simp only [bind, EStateM.bind, h]

namespace Ends
variable {ok ok' mid : α → σ → Prop} {stop stop' : ε → σ → Prop} {r : EStateM.Result ε σ α}

theorem mono (h : Ends r ok stop) (hok : ∀ a s, ok a s → ok' a s)
    (hstop : ∀ e s, stop e s → stop' e s) : Ends r ok' stop' := by
  cases r with
  | ok a s => exact hok a s h
  | error e s => exact hstop e s h

theorem and (h : Ends r ok stop) (h' : Ends r ok' stop') :
    Ends r (fun a s => ok a s ∧ ok' a s) fun e s => stop e s ∧ stop' e s := by
  cases r with
  | ok a s => exact ⟨h, h'⟩
  | error e s => exact ⟨h, h'⟩

theorem of_ok {a : α} {s : σ} (hr : r = .ok a s) (h : ok a s) : Ends r ok stop := by
  rw [hr]
  exact h

theorem exists_ok (h : Ends r ok fun _ _ => False) : ∃ a s, r = .ok a s ∧ ok a s := by
  cases r with
  | ok a s => exact ⟨a, s, rfl, h⟩
  | error e s => exact h.elim

theorem after_ok {x : EStateM ε σ α} {f : α → EStateM ε σ β} {s s' : σ} {a : α}
    {last : β → σ → Prop} (h : x s = .ok a s') (hf : Ends (f a s') last stop) :
    Ends ((x >>= f) s) last stop := by
  rw [bind_of_ok h]
  exact hf

theorem after_error {x : EStateM ε σ α} {f : α → EStateM ε σ β} {s s' : σ} {e : ε}
    {last : β → σ → Prop} (h : x s = .error e s') (he : stop e s') :
    Ends ((x >>= f) s) last stop := by
  rw [bind_of_error h]
  exact he

/-- One step after another: what the first leads to is where the second begins. -/
theorem bind {x : EStateM ε σ α} {f : α → EStateM ε σ β} {s : σ} {last : β → σ → Prop}
    (hx : Ends (x s) mid stop) (hf : ∀ a s', mid a s' → Ends (f a s') last stop) :
    Ends ((x >>= f) s) last stop := by
  cases hr : x s with
  | ok a s' =>
    rw [hr] at hx
    rw [bind_of_ok hr]
    exact hf a s' hx
  | error e s' =>
    rw [hr] at hx
    rw [bind_of_error hr]
    exact hx

end Ends

/-- Both actions go on with the same value, and `ok` relates what they leave; or both stop for the
same cause, and `stop` relates what they leave. -/
def Pairs (r : EStateM.Result ε σ α) (r' : EStateM.Result ε τ α) (ok : α → σ → τ → Prop)
    (stop : ε → σ → τ → Prop) :
    Prop :=
  match r, r' with
  | .ok a s, .ok a' t => a' = a ∧ ok a s t
  | .error e s, .error e' t => e' = e ∧ stop e s t
  | _, _ => False

namespace Pairs
variable {r : EStateM.Result ε σ α} {r' : EStateM.Result ε τ α} {ok ok' mid : α → σ → τ → Prop}
  {stop stop' : ε → σ → τ → Prop}

theorem of_ok {a : α} {s : σ} {t : τ} (hr : r = .ok a s) (hr' : r' = .ok a t) (h : ok a s t) :
    Pairs r r' ok stop := by
  rw [hr, hr']
  exact ⟨rfl, h⟩

theorem of_error {e : ε} {s : σ} {t : τ} (hr : r = .error e s) (hr' : r' = .error e t)
    (h : stop e s t) :
    Pairs r r' ok stop := by
  rw [hr, hr']
  exact ⟨rfl, h⟩

/-- Either both go on or both stop, so that results that match need not be told apart four ways. -/
theorem exists_results (h : Pairs r r' ok stop) : (∃ a s t, r = .ok a s ∧ r' = .ok a t ∧ ok a s t) ∨
    ∃ e s t, r = .error e s ∧ r' = .error e t ∧ stop e s t := by
  cases r with
  | ok a s =>
    cases r' with
    | ok a' t =>
      obtain ⟨rfl, hr⟩ := h
      exact Or.inl ⟨_, s, t, rfl, rfl, hr⟩
    | error e' t => exact absurd h id
  | error e s =>
    cases r' with
    | ok a' t => exact absurd h id
    | error e' t =>
      obtain ⟨rfl, hr⟩ := h
      exact Or.inr ⟨_, s, t, rfl, rfl, hr⟩

theorem mono (h : Pairs r r' ok stop) (hok : ∀ a s t, ok a s t → ok' a s t)
    (hstop : ∀ e s t, stop e s t → stop' e s t) : Pairs r r' ok' stop' := by
  obtain ⟨a, s, t, hr, hr', h⟩ | ⟨e, s, t, hr, hr', h⟩ := h.exists_results
  · exact .of_ok hr hr' (hok a s t h)
  · exact .of_error hr hr' (hstop e s t h)

theorem and_ends {ends : α → σ → Prop} {ends' : ε → σ → Prop} (h : Pairs r r' ok stop)
    (he : Ends r ends ends') :
    Pairs r r' (fun a s t => ok a s t ∧ ends a s) fun e s t => stop e s t ∧ ends' e s := by
  obtain ⟨a, s, t, hr, hr', h⟩ | ⟨e, s, t, hr, hr', h⟩ := h.exists_results
  · rw [hr] at he
    exact .of_ok hr hr' ⟨h, he⟩
  · rw [hr] at he
    exact .of_error hr hr' ⟨h, he⟩

/-- One step after another in both. Where the first one leads to is known in what follows it. -/
theorem bind {x : EStateM ε σ α} {y : EStateM ε τ α} {f : α → EStateM ε σ β} {g : α → EStateM ε τ β}
    {s : σ} {t : τ} {last : β → σ → τ → Prop} (h : Pairs (x s) (y t) mid stop)
    (hf : ∀ a s' t', x s = .ok a s' → y t = .ok a t' → mid a s' t' →
      Pairs (f a s') (g a t') last stop) :
    Pairs ((x >>= f) s) ((y >>= g) t) last stop := by
  obtain ⟨a, s', t', hx, hy, h⟩ | ⟨e, s', t', hx, hy, h⟩ := h.exists_results
  · rw [bind_of_ok hx, bind_of_ok hy]
    exact hf a s' t' hx hy h
  · exact .of_error (bind_of_error hx) (bind_of_error hy) h

end Pairs
end LineBasic
