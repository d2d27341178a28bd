import Rds.Item.Run

namespace Rds.Item

variable {e : Setting} {c d : Config} {s t : Progress}

/-- The loop of `run`, which is given up if it has not ended after a number of turns. -/
def runFor (e : Setting) : Nat → Config → Progress → Option (EStateM.Result Error Progress Value)
  | 0, _, _ => none
  | n + 1, c, s =>
    match step e c s with
    | .ok (.inl v) t => some (.ok v t)
    | .ok (.inr d) t => runFor e n d t
    | .error err t => some (.error err t)

/-- A bound on the turns behind the next one: two for every word ahead, and the load. -/
def turnsLeft (c : Config) (s : Progress) : Nat := 2 * (s.cursor.remaining / 4) + c.load

theorem turnsLeft_step_lt (h : step e c s = .ok (.inr d) t) : turnsLeft d t < turnsLeft c s := by
  obtain ⟨words, hrest, hload⟩ := load_step e h
  unfold turnsLeft
  omega

theorem runFor_eq {n : Nat} (hn : turnsLeft c s ≤ n) :
    runFor e (n + 1) c s = some (run e c s) := by
  fun_induction run e c s generalizing n with
  | case1 c s v t hstep => rw [runFor, hstep]
  | case2 c s d t hstep ih =>
    have hlt := Nat.lt_of_lt_of_le (turnsLeft_step_lt hstep) hn
    obtain ⟨m, rfl⟩ := Nat.exists_eq_add_of_lt (Nat.zero_lt_of_lt hlt)
    rw [Nat.zero_add] at hlt ⊢
    rw [runFor, hstep]
    exact ih (Nat.le_of_lt_succ hlt)
  | case3 c s err t hstep => rw [runFor, hstep]

end Rds.Item
