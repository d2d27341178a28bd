import Rds.Proofs.Account.Content
import Rds.Proofs.Attributes.Rebinding

namespace Rds

theorem Chars.erase_erase (c : Chars) : c.erase.erase = c.erase := by
  cases c <;> rfl

theorem Atoms.erase_erase (a : Atoms) : a.erase.erase = a.erase := by
  cases a with
  | character xs =>
    rw [erase, erase, List.map_map]
    exact congrArg character (List.map_congr_left fun c _ ↦ c.erase_erase)
  | logical _ | integer _ | double _ | complex _ | raw _ => rfl

namespace Value

mutual

theorem normal_erase (v : Value) : v.erase.normal = v.normal := by
  match v with
  | .null => rfl
  | .symbol name => rw [erase, normal, normal, name.erase_erase]
  | .char content => rw [erase, normal, normal, content.erase_erase]
  | .vector _ atoms as _ =>
    rw [erase, normal, normal, atoms.erase_erase, normalAttributes_erase as]
  | .list _ elements as _ =>
    rw [erase, normal, normal, normalAll_erase elements, normalAttributes_erase as]
  | .pair _ _ tag car cdr as _ =>
    have htag : (tag.map Chars.erase).map Chars.erase = tag.map Chars.erase := by
      rw [Option.map_map]
      exact Option.map_congr fun c _ ↦ c.erase_erase
    rw [erase, normal, normal, htag, normal_erase car, normal_erase cdr, normalAttributes_erase as]
termination_by structural v

theorem normalAll_erase (vs : List Value) : normalAll (eraseAll vs) = normalAll vs := by
  match vs with
  | [] => rfl
  | v :: vs => rw [eraseAll, normalAll, normalAll, normal_erase v, normalAll_erase vs]
termination_by structural vs

theorem normalAttributes_erase (as : List (String × Value)) :
    normalAttributes (eraseAttributes as) = normalAttributes as := by
  match as with
  | [] => rfl
  | (name, v) :: as =>
    rw [eraseAttributes, normalAttributes, normalAttributes, normal_erase v,
      normalAttributes_erase as]
termination_by structural as

end

/-- Values whose attribute sets are bound are equal if they differ in origins alone. -/
theorem beq_of_erase_eq {v w : Value} (hv : v.Bound) (hw : w.Bound) (h : v.erase = w.erase) :
    (v == w) = true := by
  rw [beq_iff_normal hv hw, ← normal_erase v, h, normal_erase]

end Value

namespace Wire

open Item Value

variable {stream : Nat} {T : ReferenceTable}

mutual

theorem bound_value? (hT : T.Symbolic) {w : Wire} {p : Nat} {v : Value}
    (h : w.value? stream T p = some v) : v.Bound := by
  match w with
  | .null word =>
    cases h
    exact bound_null
  | .reference word index? =>
    obtain ⟨name, rfl⟩ := hT.of_get? h
    exact bound_of_children (.inl rfl) nofun
  | .char word content? part? =>
    cases h
    exact bound_of_children (.inl rfl) nofun
  | .symbol word w =>
    obtain ⟨name, -, rfl⟩ := Option.map_eq_some_iff.mp h
    exact bound_of_children (.inl rfl) nofun
  | .atoms word data part? =>
    obtain ⟨as, has, h⟩ := Option.bind_eq_some_iff.mp h
    cases h
    obtain ⟨hset, hvalues⟩ := bound_attributeSet? hT has
    exact bound_of_children hset (List.forall_mem_map.mpr hvalues)
  | .strings word elements part? =>
    obtain ⟨vs, -, h⟩ := Option.bind_eq_some_iff.mp h
    obtain ⟨contents, -, h⟩ := Option.bind_eq_some_iff.mp h
    obtain ⟨as, has, h⟩ := Option.bind_eq_some_iff.mp h
    cases h
    obtain ⟨hset, hvalues⟩ := bound_attributeSet? hT has
    exact bound_of_children hset (List.forall_mem_map.mpr hvalues)
  | .list word elements part? =>
    obtain ⟨vs, hvs, h⟩ := Option.bind_eq_some_iff.mp h
    obtain ⟨as, has, h⟩ := Option.bind_eq_some_iff.mp h
    cases h
    obtain ⟨hset, hvalues⟩ := bound_attributeSet? hT has
    exact bound_of_children hset
      (List.forall_mem_append.mpr ⟨bound_values? hT hvs, List.forall_mem_map.mpr hvalues⟩)
  | .cell word part? tag? car cdr =>
    obtain ⟨kind, -, h⟩ := Option.bind_eq_some_iff.mp h
    obtain ⟨as, has, h⟩ := Option.bind_eq_some_iff.mp h
    obtain ⟨tag, -, h⟩ := Option.bind_eq_some_iff.mp h
    obtain ⟨a, ha, h⟩ := Option.bind_eq_some_iff.mp h
    obtain ⟨d, hd, h⟩ := Option.bind_eq_some_iff.mp h
    cases h
    obtain ⟨hset, hvalues⟩ := bound_attributeSet? hT has
    exact bound_of_children hset (List.forall_mem_cons.mpr ⟨bound_value? hT ha,
      List.forall_mem_cons.mpr ⟨bound_value? hT hd, List.forall_mem_map.mpr hvalues⟩⟩)
termination_by structural w

theorem bound_attributeSet? (hT : T.Symbolic) {part? : Option Wire} {p : Nat} {as : Attributes}
    (h : attributeSet? stream T part? p = some as) : as.Bound ∧ ∀ a ∈ as, a.2.Bound := by
  match part? with
  | none =>
    cases h
    exact ⟨.inl rfl, nofun⟩
  | some w =>
    obtain ⟨v, hv, h⟩ := Option.bind_eq_some_iff.mp h
    have hbind := toOption_eq_some h
    exact ⟨.inr ⟨v, hbind⟩, fun a ↦ Attributes.bound_values_of_bind (bound_value? hT hv) hbind⟩
termination_by structural part?

theorem bound_values? (hT : T.Symbolic) {ws : List Wire} {p : Nat} {vs : List Value}
    (h : values? stream T ws p = some vs) : ∀ v ∈ vs, v.Bound := by
  match ws with
  | [] =>
    cases h
    exact nofun
  | w :: ws =>
    obtain ⟨v, hv, h⟩ := Option.bind_eq_some_iff.mp h
    obtain ⟨us, hus, h⟩ := Option.bind_eq_some_iff.mp h
    cases h
    exact List.forall_mem_cons.mpr ⟨bound_value? hT hv, bound_values? hT hus⟩
termination_by structural ws

end

end Wire

/-- All attribute sets of a value that has been read are bound. -/
theorem Item.bound_of_read {e : Setting} {s t : Progress} {v : Value} (hs : s.table.Symbolic)
    (h : read e s = .ok v t) : v.Bound := by
  obtain ⟨w, -, hm, hv⟩ := (Account.accounted_read e s hs).of_ok h
  exact Wire.bound_value? (hs.extends hm.grows) (hv _ (.refl _))

end Rds
