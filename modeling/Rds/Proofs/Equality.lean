import Rds.Proofs.Normal
import Rds.Proofs.Sharing.Memory

namespace Rds.Value

variable {a b c : Value} {σ : Store}

def atoms? : Value → Option Atoms
  | vector _ atoms _ _ => some atoms
  | _ => none

theorem beq_iff_normal (ha : a.Bound) (hb : b.Bound) :
    (a == b) = true ↔ a.normal = b.normal :=
  same_iff_normal ha hb

theorem beq_refl (ha : a.Bound) : (a == a) = true := (beq_iff_normal ha ha).mpr rfl

/-- In one memory, values that share are equal. -/
theorem beq_of_shares (hbound : a.Bound) (ha : a.In σ) (hb : b.In σ) (h : a.shares b = true) :
    (a == b) = true := by
  cases a with
  | null =>
    cases b with
    | null => rfl
    | _ => cases h
  | symbol name =>
    cases b with
    | symbol name' => exact Chars.beq_of_shares ha hb h
    | _ => cases h
  | char content =>
    cases b with
    | char content' => exact Chars.beq_of_shares ha hb h
    | _ => cases h
  | vector _ _ _ _ | list _ _ _ _ | pair _ _ _ _ _ _ _ =>
    rw [← eq_of_shares ha hb h rfl]
    exact beq_refl hbound

theorem atoms?_normal (v : Value) : v.normal.atoms? = v.atoms?.map Atoms.erase := by
  cases v <;> rfl

theorem rel_of_map_eq {α β : Type} {f : α → β} {R : α → α → Prop} {x? y? : Option α}
    (h : x?.map f = y?.map f) (hR : ∀ x ∈ x?, ∀ y ∈ y?, f x = f y → R x y) :
    Option.Rel R x? y? := by
  cases x? with
  | none =>
    cases y? with
    | none => exact .none
    | some y => cases h
  | some x =>
    cases y? with
    | none => cases h
    | some y => exact .some (hR x rfl y rfl (Option.some.inj h))

theorem equivalence_beq : Equivalence fun a b : {v : Value // v.Bound} ↦ (a.1 == b.1) = true := by
  have hiff (a b : {v : Value // v.Bound}) : (a.1 == b.1) = true ↔ a.1.normal = b.1.normal :=
    beq_iff_normal a.2 b.2
  simp only [hiff]
  exact ⟨fun _ ↦ rfl, fun h ↦ h.symm, fun h h' ↦ h.trans h'⟩

theorem equivalence_shares : Equivalence fun a b : Value ↦ a.shares b = true := by
  simp only [shares_iff_storage]
  exact ⟨fun _ ↦ rfl, fun h ↦ h.symm, fun h h' ↦ h.trans h'⟩

theorem atoms?_of_normal (h : a.normal = b.normal) :
    Option.Rel (fun xs ys ↦ (xs == ys) = true) a.atoms? b.atoms? := by
  have hatoms : a.atoms?.map Atoms.erase = b.atoms?.map Atoms.erase := by
    rw [← atoms?_normal, ← atoms?_normal, h]
  exact rel_of_map_eq hatoms fun xs _ ys _ he ↦ Atoms.beq_iff_erase.mpr he

theorem step?_of_normal (ha : a.Bound) (hb : b.Bound) (h : a.normal = b.normal) (step : Step) :
    Option.Rel (fun u w ↦ (u == w) = true) (a.step? step) (b.step? step) := by
  have hstep : (a.step? step).map normal = (b.step? step).map normal := by
    rw [← step?_normal ha, ← step?_normal hb, h]
  refine rel_of_map_eq hstep fun u hu w hw he ↦ ?_
  have hub := ha.of_mem_children (mem_children_of_step? hu)
  have hwb := hb.of_mem_children (mem_children_of_step? hw)
  exact (beq_iff_normal hub hwb).mpr he

/-- Equality and sharing are equivalences, and values that share are equal. Equal values have one
type name and one length, and their elements, cells and attributes are equal one by one. -/
theorem equality_laws :
    Equivalence (fun a b : {v : Value // v.Bound} ↦ (a.1 == b.1) = true) ∧
    Equivalence (fun a b : Value ↦ a.shares b = true) ∧
    (∀ (σ : Store) (a b : Value), a.Bound → a.In σ → b.In σ → a.shares b = true →
      (a == b) = true) ∧
    ∀ a b : Value, a.Bound → b.Bound → (a == b) = true →
      a.typeName = b.typeName ∧ a.length = b.length ∧ a.isComplete? = b.isComplete? ∧
      Option.Rel (fun xs ys ↦ (xs == ys) = true) a.atoms? b.atoms? ∧
      ∀ step, Option.Rel (fun u w ↦ (u == w) = true) (a.step? step) (b.step? step) := by
  refine ⟨equivalence_beq, equivalence_shares, fun σ a b ↦ beq_of_shares, fun a b ha hb h ↦ ?_⟩
  have h : a.normal = b.normal := (beq_iff_normal ha hb).mp h
  refine ⟨?_, ?_, ?_, atoms?_of_normal h, step?_of_normal ha hb h⟩
  · rw [typeName, typeName, ← kind_normal a, ← kind_normal b, h]
  · rw [← length_normal a, ← length_normal b, h]
  · rw [← isComplete?_normal a, ← isComplete?_normal b, h]

/-- A NaN and a missing double, with some attributes. -/
def nanVector (as : Attributes) : Value :=
  .vector ⟨0, 0⟩ (.double [⟨0x7ff8000000000000⟩, Double.na]) as false

theorem bound_nanVector {as : Attributes} (h : as.Bound) (hnull : ∀ a ∈ as, a.2 = null) :
    (nanVector as).Bound := by
  refine bound_of_children h fun u hu ↦ ?_
  obtain ⟨a, ha, rfl⟩ := List.mem_map.mp hu
  exact hnull a ha ▸ bound_null

theorem equality_laws_nanVector :
    let v := nanVector [("a", null), ("b", null)]
    let w := nanVector [("b", null), ("a", null)]
    v.Bound ∧ w.Bound ∧ (v == w) = true ∧ (w == v) = true ∧
    Option.Rel (fun x y ↦ (x == y) = true) (v.step? (.attr "b")) (w.step? (.attr "b")) ∧
    ∃ s, Session.start ⟨3, true, false⟩ 0 Account.twins [] = .ok s ∧
      ∃ x y, s.node? [.item, .item] 0 [.element 0] = some x ∧
        s.node? [.item, .item] 1 [] = some y ∧ x.shares y = true ∧ (x == y) = true := by
  intro v w
  obtain ⟨hbeq, -, hshares, hcongr⟩ := equality_laws
  have hv : v.Bound := by
    refine bound_nanVector (.inr ⟨Attributes.chain [("a", null), ("b", null)], rfl⟩) ?_
    simp
  have hw : w.Bound := by
    refine bound_nanVector (.inr ⟨Attributes.chain [("b", null), ("a", null)], rfl⟩) ?_
    simp
  have hvw : (v == w) = true := by decide
  refine ⟨hv, hw, hvw, hbeq.symm (x := ⟨v, hv⟩) (y := ⟨w, hw⟩) hvw, ?_, ?_⟩
  · exact (hcongr v w hv hw hvw).2.2.2.2 (.attr "b")
  · let s : Session := ⟨⟨3, true, false⟩, 0, none, .start Account.twins []⟩
    have hstart : Session.start ⟨3, true, false⟩ 0 Account.twins [] = .ok s := rfl
    obtain ⟨σ, hσ⟩ := Account.exists_store hstart [.item, .item]
    have hnodes : ((s.node? [.item, .item] 0 [.element 0]).bind fun x ↦
        (s.node? [.item, .item] 1 []).map fun y ↦
          x.symbolName?.isSome && x.shares y) = some true := by decide +kernel
    obtain ⟨x, hx, hnodes⟩ := Option.bind_eq_some_iff.mp hnodes
    obtain ⟨y, hy, hnodes⟩ := Option.map_eq_some_iff.mp hnodes
    obtain ⟨hname, hxy⟩ := (Bool.and_eq_true _ _).mp hnodes
    have hbound : x.Bound := by
      cases x with
      | symbol name => exact bound_of_children (.inl rfl) nofun
      | _ => cases hname
    exact ⟨s, hstart, x, y, hx, hy, hxy, hshares σ x y hbound (hσ _ _ _ hx) (hσ _ _ _ hy) hxy⟩

end Rds.Value
