import Rds.Proofs.Path

namespace Rds

/-- What memory holds: one text and one container at each origin. -/
structure Store where
  text : Origin → String
  container : Origin → Value

namespace Chars

variable {a b : Chars}

def origin? : Chars → Option Origin
  | na => none
  | text origin _ => some origin

theorem shares_iff_origin : a.shares b = true ↔ a.origin? = b.origin? := by
  cases a <;> cases b <;> simp [shares, origin?]

def In (σ : Store) : Chars → Prop
  | na => True
  | text origin content => σ.text origin = content

theorem beq_of_shares {σ : Store} (ha : a.In σ) (hb : b.In σ) (h : a.shares b = true) :
    (a == b) = true := by
  cases a with
  | na =>
    cases b with
    | na => rfl
    | text _ _ => cases h
  | text origin content =>
    cases b with
    | na => cases h
    | text origin' content' =>
      obtain rfl := beq_iff_eq.mp h
      have hcontent : content = content' := ha.symm.trans hb
      exact hcontent ▸ beq_self_eq_true (some content)

end Chars

/-- The storage that a value stands for. The kind of a cell does not count. -/
inductive Storage
  | null
  | symbol (origin : Option Origin)
  | char (origin : Option Origin)
  | vector (kind : Kind) (origin : Origin)
  | list (origin : Origin)
  | pair (origin : Origin)

def Storage.container? : Storage → Option Origin
  | null => none
  | symbol _ => none
  | char _ => none
  | vector _ origin => some origin
  | list origin => some origin
  | pair origin => some origin

namespace Value

variable {a b : Value}

def storage : Value → Storage
  | null => .null
  | symbol name => .symbol name.origin?
  | char content => .char content.origin?
  | vector origin atoms _ _ => .vector atoms.kind origin
  | list origin _ _ _ => .list origin
  | pair origin _ _ _ _ _ _ => .pair origin

theorem shares_iff_storage : a.shares b = true ↔ a.storage = b.storage := by
  cases a <;> cases b <;> simp [shares, storage, Chars.shares_iff_origin]

theorem shares_refl (a : Value) : a.shares a = true := shares_iff_storage.mpr rfl

theorem origin?_eq_container? (a : Value) : a.origin? = a.storage.container? := by
  cases a <;> rfl

theorem origin?_eq_of_shares (h : a.shares b = true) : a.origin? = b.origin? := by
  rw [origin?_eq_container?, origin?_eq_container?, shares_iff_storage.mp h]

def In (σ : Store) : Value → Prop
  | null => True
  | symbol name => name.In σ
  | char content => content.In σ
  | v => ∀ origin, v.origin? = some origin → σ.container origin = v

theorem In.container {σ : Store} (h : a.In σ) {origin : Origin} (ho : a.origin? = some origin) :
    σ.container origin = a := by
  cases a with
  | null | symbol _ | char _ => cases ho
  | vector _ _ _ _ | list _ _ _ _ | pair _ _ _ _ _ _ _ => exact h origin ho

/-- In one memory, containers that share are one and the same. -/
theorem eq_of_shares {σ : Store} (ha : a.In σ) (hb : b.In σ) (h : a.shares b = true)
    {origin : Origin} (ho : a.origin? = some origin) : a = b := by
  rw [← ha.container ho, hb.container ((origin?_eq_of_shares h).symm.trans ho)]

end Value

end Rds
