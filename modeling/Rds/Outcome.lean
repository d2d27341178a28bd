namespace Rds

theorem EStateM.bind_eq_ok {ε σ α β : Type} {x : EStateM ε σ α} {f : α → EStateM ε σ β}
    {s u : σ} {b : β} :
    (x >>= f) s = .ok b u ↔ ∃ a t, x s = .ok a t ∧ f a t = .ok b u := by
  change EStateM.bind x f s = _ ↔ _
  unfold EStateM.bind
  cases h : x s with
  | ok a t =>
    constructor
    · exact fun h ↦ ⟨a, t, rfl, h⟩
    · rintro ⟨_, _, h, h'⟩
      cases h
      exact h'
  | error e t =>
    constructor
    · exact nofun
    · exact fun ⟨_, _, h, _⟩ ↦ nomatch h

theorem EStateM.bind_of_ok {ε σ α β : Type} {x : EStateM ε σ α} {s t : σ} {a : α}
    (h : x s = .ok a t) (f : α → EStateM ε σ β) : (x >>= f) s = f a t := by
  change EStateM.bind x f s = _
  rw [EStateM.bind, h]

theorem EStateM.bind_of_error {ε σ α β : Type} {x : EStateM ε σ α} {s t : σ} {e : ε}
    (h : x s = .error e t) (f : α → EStateM ε σ β) : (x >>= f) s = .error e t := by
  change EStateM.bind x f s = _
  rw [EStateM.bind, h]

theorem EStateM.throw_bind {ε σ α β : Type} (e : ε) (f : α → EStateM ε σ β) :
    (throw e >>= f : EStateM ε σ β) = throw e := rfl

theorem EStateM.map_eq_ok {ε σ α β : Type} {x : EStateM ε σ α} {f : α → β} {s u : σ} {b : β} :
    (f <$> x) s = .ok b u ↔ ∃ a, x s = .ok a u ∧ f a = b := by
  change EStateM.map f x s = _ ↔ _
  unfold EStateM.map
  cases h : x s with
  | ok a t =>
    constructor
    · intro h
      cases h
      exact ⟨a, rfl, rfl⟩
    · rintro ⟨_, h, h'⟩
      cases h
      cases h'
      rfl
  | error e t =>
    constructor
    · exact nofun
    · exact fun ⟨_, h, _⟩ ↦ nomatch h

theorem EStateM.map_of_ok {ε σ α β : Type} {x : EStateM ε σ α} {s t : σ} {a : α}
    (h : x s = .ok a t) (f : α → β) : (f <$> x) s = .ok (f a) t :=
  EStateM.map_eq_ok.mpr ⟨a, h, rfl⟩

theorem EStateM.map_of_error {ε σ α β : Type} {x : EStateM ε σ α} {s t : σ} {e : ε}
    (h : x s = .error e t) (f : α → β) : (f <$> x) s = .error e t := by
  change EStateM.map f x s = _
  rw [EStateM.map, h]

theorem EStateM.pure_eq_ok {ε σ α : Type} {a b : α} {s t : σ} :
    (pure a : EStateM ε σ α) s = .ok b t ↔ a = b ∧ s = t := by
  change EStateM.Result.ok a s = _ ↔ _
  simp

theorem EStateM.throw_ne_ok {ε σ α : Type} {e : ε} {a : α} {s t : σ} :
    (throw e : EStateM ε σ α) s ≠ .ok a t :=
  fun h ↦ by cases h

end Rds
