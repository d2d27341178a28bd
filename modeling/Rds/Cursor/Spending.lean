import Rds.Cursor
import Rds.Outcome

namespace Rds

namespace Cursor

/-- A reader that spends `k` bytes or more whenever it succeeds. -/
def Spends {α : Type} (k : Nat) (r : Reader α) : Prop :=
  ∀ c a d, r c = .ok a d → d.remaining + k ≤ c.remaining

variable {α β : Type}

theorem spends_pure (a : α) : Spends 0 (pure a) := by
  intro c b d h
  rw [EStateM.pure_eq_ok] at h
  rw [h.2]
  exact Nat.le_refl _

theorem spends_throw (k : Nat) (e : Error) : Spends k (throw e : Reader α) :=
  fun _ _ _ h ↦ absurd h EStateM.throw_ne_ok

theorem Spends.bind {j k : Nat} {r : Reader α} {f : α → Reader β} (hr : Spends j r)
    (hf : ∀ a, Spends k (f a)) : Spends (j + k) (r >>= f) := by
  intro c b d h
  obtain ⟨a, t, h, h'⟩ := EStateM.bind_eq_ok.mp h
  have := hr c a t h
  have := hf a t b d h'
  omega

theorem Spends.map {k : Nat} {r : Reader α} (hr : Spends k r) (f : α → β) :
    Spends k (f <$> r) := by
  intro c b d h
  obtain ⟨a, h, -⟩ := EStateM.map_eq_ok.mp h
  exact hr c a d h

theorem Spends.mono {j k : Nat} {r : Reader α} (hr : Spends k r) (h : j ≤ k) : Spends j r :=
  fun c a d hc ↦ Nat.le_trans (Nat.add_le_add_left h _) (hr c a d hc)

theorem spends_bytes (n : Nat) : Spends n (bytes n) := by
  intro c a d h
  by_cases hn : n ≤ c.remaining
  · rw [bytes_ok hn] at h
    cases h
    simp only [advance, remaining, List.length_drop] at hn ⊢
    omega
  · rw [bytes_error (Nat.lt_of_not_le hn)] at h
    cases h

theorem spends_int32 : Spends 4 int32 := (spends_bytes 4).bind fun _ ↦ spends_pure _

theorem spends_word64 : Spends 8 word64 := (spends_bytes 8).bind fun _ ↦ spends_pure _

theorem spends_length : Spends 4 length := by
  refine spends_int32.bind (k := 0) fun n ↦ ?_
  split
  · exact spends_throw 0 _
  · exact spends_pure _

end Cursor

end Rds
