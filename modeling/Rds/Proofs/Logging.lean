import Rds.Proofs.Locality.Stream

namespace Rds

namespace Item.Progress

def logging (s : Progress) (log : Log) : Progress := { s with log }

theorem logging_start (bytes : List UInt8) (log log' : Log) :
    (start bytes log).logging log' = start bytes log' := rfl

end Item.Progress

namespace Logging

open Item Locality

variable {α β : Type}

/-- Whatever has been noted before, the reading does the same and notes the same. -/
def Blind (r : Reading α) : Prop :=
  ∀ s, ∃ new, ∀ log, r (s.logging log) = mapProgress (·.logging (new ++ log)) (r s)

theorem Blind.bind {r : Reading α} {f : α → Reading β} (hr : Blind r) (hf : ∀ a, Blind (f a)) :
    Blind (r >>= f) := by
  intro s
  obtain ⟨new, h⟩ := hr s
  cases hs : r s with
  | ok a t =>
    obtain ⟨new', h'⟩ := hf a t
    refine ⟨new' ++ new, fun log ↦ ?_⟩
    have hlog := h log
    rw [hs] at hlog
    rw [EStateM.bind_of_ok hs, EStateM.bind_of_ok hlog, List.append_assoc]
    exact h' (new ++ log)
  | error err t =>
    refine ⟨new, fun log ↦ ?_⟩
    have hlog := h log
    rw [hs] at hlog
    rw [EStateM.bind_of_error hs]
    exact EStateM.bind_of_error hlog f

theorem blind_pure (a : α) : Blind (pure a) := fun _ ↦ ⟨[], fun _ ↦ rfl⟩

theorem blind_throw (err : Error) : Blind (throw err : Reading α) := fun _ ↦ ⟨[], fun _ ↦ rfl⟩

theorem blind_note (event : Event) : Blind (note event) := fun _ ↦ ⟨[event], fun _ ↦ rfl⟩

theorem blind_onCursor (r : Cursor.Reader α) : Blind (onCursor r) := by
  refine fun s ↦ ⟨[], fun log ↦ ?_⟩
  have hcursor : (s.logging log).cursor = s.cursor := rfl
  rw [onCursor, onCursor, hcursor]
  cases r s.cursor <;> rfl

theorem compositional_blind : Compositional Blind where
  pure := blind_pure
  fail _ := blind_throw _
  unsupported _ := blind_throw _
  bind := Blind.bind
  position hf s := hf s.cursor.position s
  table hf s := hf s.table s
  bytes _ := blind_onCursor _
  warn event _ := blind_note event
  item _ _ _ := blind_note _
  register name s := ⟨[.registered name (s.table.push (.symbol name)).size], fun _ ↦ rfl⟩

theorem blind_read (e : Setting) : Blind (read e) := by
  intro s
  obtain ⟨r, hr, heq⟩ := Descent.exists_read_eq e compositional_blind (fun _ ↦ blind_throw _)
    s.cursor.remaining
  obtain ⟨new, h⟩ := hr s
  refine ⟨new, fun log ↦ ?_⟩
  rw [heq s (Nat.le_refl _), heq (s.logging log) (Nat.le_refl _)]
  exact h log

theorem blind_root (e : Setting) : Blind (root e) :=
  (blind_onCursor _).bind fun _ ↦ (blind_note _).bind fun _ ↦
    (blind_read e).bind fun _ ↦ blind_pure _

end Logging

end Rds
