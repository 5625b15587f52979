import LineBasic.Proofs.Expr.Meaning
import LineBasic.Proofs.Host
import LineBasic.Proofs.Memory.Twin
import LineBasic.Proofs.Session.Drift

namespace LineBasic
variable {σ τ α β : Type}

namespace Session

/-- The session with another host. -/
def on (s : Session σ) (host : τ) : Session τ :=
  ⟨s.interpreter, host, s.journal⟩

/-- Side by side the two actions have the same result, with related hosts, as long as no `PEEK` is
applied or the interpreters are exactly the same. They lead from interpreters that `pre` relates to
such that `post` relates, or `stop` where they stop short. -/
structure Tracks (R : σ → τ → Prop) (exact : Prop) (pre : Interpreter → Interpreter → Prop)
    (post : α → Interpreter → Interpreter → Prop) (stop : Interpreter → Interpreter → Prop)
    (act : Act σ α) (act' : Act τ α) : Prop where
  drifts : Drifts act
  pairs : ∀ s t, R s.host t.host → pre s.interpreter t.interpreter →
    (exact ∨ (final (act s)).journal.peeks = s.journal.peeks) →
    Pairs (act s) (act' t) (fun a s' t' => R s'.host t'.host ∧ post a s'.interpreter t'.interpreter)
      fun _ s' t' => R s'.host t'.host ∧ stop s'.interpreter t'.interpreter

section
variable {R : σ → τ → Prop} {exact : Prop} {pre pre' : Interpreter → Interpreter → Prop}
  {post post' : α → Interpreter → Interpreter → Prop} {last : β → Interpreter → Interpreter → Prop}
  {stop stop' : Interpreter → Interpreter → Prop}

theorem Tracks.mono {act : Act σ α} {act' : Act τ α} (h : Tracks R exact pre post stop act act')
    (hpre : ∀ i j, pre' i j → pre i j) (hpost : ∀ a i j, post a i j → post' a i j)
    (hstop : ∀ i j, stop i j → stop' i j) : Tracks R exact pre' post' stop' act act' := by
  refine ⟨h.drifts, fun s t hR hp hpeeks => ?_⟩
  exact (h.pairs s t hR (hpre _ _ hp) hpeeks).mono (fun a _ _ hr => ⟨hr.1, hpost a _ _ hr.2⟩)
    fun _ _ _ hr => ⟨hr.1, hstop _ _ hr.2⟩

theorem tracks_pure {a : α} (h : ∀ i j, pre i j → post a i j) :
    Tracks R exact pre post stop (pure a : Act σ α) (pure a : Act τ α) :=
  ⟨.pure a, fun _ _ hR hp _ => ⟨rfl, hR, h _ _ hp⟩⟩

theorem tracks_fail {e e' : Error} (he : e' = e) (h : ∀ i j, pre i j → stop i j) :
    Tracks R exact pre post stop (fail e : Act σ α) (fail e' : Act τ α) :=
  ⟨.fail e, fun _ _ hR hp _ => ⟨congrArg Halt.error he, hR, h _ _ hp⟩⟩

theorem tracks_never {act : Act σ α} {act' : Act τ α} (hd : Drifts act) (h : ∀ i j, ¬ pre i j) :
    Tracks R exact pre post stop act act' :=
  ⟨hd, fun _ _ _ hp _ => absurd hp (h _ _)⟩

theorem Tracks.bind {P : α → Interpreter → Interpreter → Prop} {x : Act σ α} {x' : Act τ α}
    {f : α → Act σ β} {f' : α → Act τ β} (hx : Tracks R exact pre P stop x x')
    (hf : ∀ a, Tracks R exact (P a) last stop (f a) (f' a)) :
    Tracks R exact pre last stop (x >>= f) (x' >>= f') := by
  refine ⟨hx.drifts.bind fun a => (hf a).drifts, fun s t hR hp hpeeks => ?_⟩
  have hsplit := @Drifts.peeks_eq _ _ _ x f hx.drifts (fun a => (hf a).drifts) s
  refine (hx.pairs s t hR hp (hpeeks.imp_right fun h => (hsplit h).1)).bind fun a s' t' hr _ hmid =>
    ?_
  exact (hf a).pairs s' t' hmid.1 hmid.2 (hpeeks.imp_right fun h => (hsplit h).2 a s' hr)

theorem tracks_ite {c : Prop} [Decidable c] {x y : Act σ α} {x' y' : Act τ α}
    (hx : c → Tracks R exact pre post stop x x') (hy : ¬ c → Tracks R exact pre post stop y y') :
    Tracks R exact pre post stop (if c then x else y) (if c then x' else y') := by
  split
  case isTrue h => exact hx h
  case isFalse h => exact hy h

theorem tracks_look {f : Interpreter → α} (h : ∀ i j, pre i j → f j = f i) :
    Tracks R exact pre (fun a i j => pre i j ∧ f i = a) stop (look f : Act σ α)
    (look f : Act τ α) :=
  ⟨.look f, fun _ _ hR hp _ => ⟨h _ _ hp, hR, hp, rfl⟩⟩

/-- Looking at what is not the same but similar, and what follows it. -/
theorem Tracks.similar {f : Interpreter → α} {S : α → α → Prop} {g : α → Act σ β} {k : α → Act τ β}
    (hrefl : ∀ a, S a a) (h : ∀ i j, pre i j → S (f i) (f j))
    (hk : ∀ a a', S a a' → Tracks R exact (fun i j => pre i j ∧ f i = a ∧ f j = a') last stop
      (g a) (k a')) :
    Tracks R exact pre last stop (look f >>= g) (look f >>= k) :=
  ⟨(Drifts.look _).bind fun a => (hk a a (hrefl a)).drifts,
    fun s t hR hp hpeeks => (hk _ _ (h _ _ hp)).pairs s t hR ⟨hp, rfl, rfl⟩ hpeeks⟩

theorem tracks_onMemory {update update' : Update α} (hk : Memory.KeepsBounds update)
    (h : ∀ i j, pre i j → ∃ a m m', update i.memory = .ok a m ∧ update' j.memory = .ok a m' ∧
      post a (i.withMemory m) (j.withMemory m')) :
    Tracks R exact pre post stop (onMemory update : Act σ α) (onMemory update' : Act τ α) := by
  refine ⟨.onMemory hk, fun s t hR hp _ => ?_⟩
  obtain ⟨a, m, m', hrun, hrun', hpost⟩ := h _ _ hp
  exact .of_ok (onMemory_of_ok hrun) (onMemory_of_ok hrun') ⟨hR, hpost⟩

theorem tracks_lookIn {f : Memory → Except Fault α}
    (h : ∀ i j, pre i j → ∃ a, f i.memory = .ok a ∧ f j.memory = .ok a) :
    Tracks R exact pre (fun a i j => pre i j ∧ f i.memory = .ok a) stop (lookIn f : Act σ α)
      (lookIn f : Act τ α) := by
  refine tracks_onMemory (.reading f) fun i j hp => ?_
  obtain ⟨a, ha, ha'⟩ := h i j hp
  exact ⟨a, i.memory, j.memory, Memory.reading_of_ok ha, Memory.reading_of_ok ha', hp, ha⟩

theorem tracks_change {f : Interpreter → Interpreter}
    (hm : ∀ i : Interpreter, i.memory.SameBounds (f i).memory)
    (he : ∀ i : Interpreter, (f i).echo = i.echo)
    (hr : ∀ i : Interpreter, (f i).generator.random = i.generator.random)
    {mid : Unit → Interpreter → Interpreter → Prop} (h : ∀ i j, pre i j → mid () (f i) (f j)) :
    Tracks R exact pre mid stop (change f : Act σ Unit) (change f : Act τ Unit) :=
  ⟨.change hm he hr, fun _ _ hR hp _ => ⟨rfl, hR, h _ _ hp⟩⟩

theorem tracks_note (entry entry' : Journal.Entry) :
    Tracks R exact pre (fun _ => pre) stop (note entry : Act σ Unit) (note entry' : Act τ Unit) :=
  ⟨.note entry, fun _ _ hR hp _ => ⟨rfl, hR, hp⟩⟩

/-- Related hosts answer the same, and nothing else of the sessions changes. -/
theorem pairs_onHost {operation : EStateM IoError σ α} {operation' : EStateM IoError τ α}
    (h : Mirrored R operation operation') {s : Session σ} {t : Session τ} (hR : R s.host t.host) :
    Pairs (onHost operation s) (onHost operation' t)
      (fun a s' t' => operation s.host = .ok a s'.host ∧ R s'.host t'.host ∧
        s' = { s with host := s'.host } ∧
        t' = { t with host := t'.host })
      fun _ s' t' => R s'.host t'.host ∧ s' = { s with host := s'.host } ∧
        t' = { t with host := t'.host } := by
  unfold onHost
  dsimp only
  obtain ⟨a, host, host', hr, hr', hR'⟩ | ⟨e, host, host', hr, hr', hR'⟩ :=
    (h s.host t.host hR).exists_results
  · rw [hr, hr']
    exact ⟨rfl, rfl, hR', rfl, rfl⟩
  · rw [hr, hr']
    exact ⟨rfl, hR', rfl, rfl⟩

theorem tracks_onHost {operation : EStateM IoError σ α} {operation' : EStateM IoError τ α}
    (h : Mirrored R operation operation') (hs : ∀ i j, pre i j → stop i j) :
    Tracks R exact pre (fun _ => pre) stop (onHost operation) (onHost operation') := by
  refine ⟨.onHost operation, fun s t hR hp _ => (pairs_onHost h hR).mono (fun a s' t' hr => ?_)
    fun e s' t' hr => ?_⟩
  · obtain ⟨-, hR', hs', ht'⟩ := hr
    rw [hs', ht']
    exact ⟨hR', hp⟩
  · obtain ⟨hR', hs', ht'⟩ := hr
    rw [hs', ht']
    exact ⟨hR', hs _ _ hp⟩

theorem Tracks.attempt {act : Act σ α} {act' : Act τ α}
    (h : Tracks R exact pre post stop act act') :
    Tracks R exact pre (fun r i j => match r with
      | .ok a => post a i j
      | .error _ => stop i j) stop (attempt act) (attempt act') := by
  refine ⟨h.drifts.attempt, fun s t hR hp hpeeks => ?_⟩
  have hfinal : final (Session.attempt act s) = final (act s) := by
    unfold Session.attempt
    cases act s with
    | ok a s' => rfl
    | error e s' => cases e <;> rfl
  have hpairs := h.pairs s t hR hp (hfinal ▸ hpeeks)
  unfold Session.attempt
  obtain ⟨a, s', t', hr, hr', hpost⟩ | ⟨e, s', t', hr, hr', hstop⟩ := hpairs.exists_results
  · rw [hr, hr']
    exact ⟨rfl, hpost⟩
  · rw [hr, hr']
    cases e with
    | error e => exact ⟨rfl, hstop⟩
    | io e => exact ⟨rfl, hstop⟩
    | fault f => exact ⟨rfl, hstop⟩

end
end Session
end LineBasic
