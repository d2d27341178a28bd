import Rds.Item.Burden

namespace Rds.Item

variable (e : Setting)

/-- Takes steps until an item is complete or a step fails. -/
def run (c : Config) (s : Progress) : EStateM.Result Error Progress Value :=
  match _h : step e c s with
  | .ok (.inl v) t => .ok v t
  | .ok (.inr d) t => run d t
  | .error err t => .error err t
termination_by burden c s
decreasing_by exact burden_step_lt e _h

def read : Reading Value := run e ⟨Stack.empty, .item⟩

end Rds.Item
