import Rds.Proofs.Path
import Rds.Proofs.Storable
import Rds.Value.Descent

namespace Rds

namespace Value

def children : Value → List Value
  | vector _ _ attributes _ => attributes.map Prod.snd
  | list _ elements attributes _ => elements ++ attributes.map Prod.snd
  | pair _ _ _ car cdr attributes _ => car :: cdr :: attributes.map Prod.snd
  | _ => []

theorem mem_children_of_attribute {v : Value} {a : String × Value} (h : a ∈ v.attributes) :
    a.2 ∈ v.children := by
  have ha : a.2 ∈ v.attributes.map Prod.snd := List.mem_map_of_mem h
  cases v with
  | null | symbol _ | char _ => cases h
  | vector _ _ _ _ => exact ha
  | list _ _ _ _ => exact List.mem_append_right _ ha
  | pair _ _ _ _ _ _ _ => exact List.mem_cons_of_mem _ (List.mem_cons_of_mem _ ha)

theorem sizeOf_lt_of_mem_children {u v : Value} (h : u ∈ v.children) : sizeOf u < sizeOf v := by
  have hset {as : Attributes} (h : u ∈ as.map Prod.snd) : sizeOf u < sizeOf as := by
    obtain ⟨a, ha, rfl⟩ := List.mem_map.mp h
    exact sizeOf_entry_lt ha
  cases v with
  | null | symbol _ | char _ => cases h
  | vector _ _ _ _ =>
    have := hset h
    simp only [vector.sizeOf_spec]
    omega
  | list _ elements _ _ =>
    simp only [list.sizeOf_spec]
    rcases List.mem_append.mp h with h | h
    · have := List.sizeOf_lt_of_mem h
      omega
    · have := hset h
      omega
  | pair _ _ _ car cdr _ _ =>
    simp only [pair.sizeOf_spec]
    rcases List.mem_cons.mp h with rfl | h
    · omega
    · rcases List.mem_cons.mp h with rfl | h
      · omega
      · have := hset h
        omega

theorem induction_children {P : Value → Prop} (h : ∀ v, (∀ u ∈ v.children, P u) → P v)
    (v : Value) : P v :=
  h v fun u _ ↦ induction_children h u
termination_by sizeOf v
decreasing_by exact sizeOf_lt_of_mem_children ‹_›

/-- An induction for what is said of a node and of the rest of a chain. A cell goes on with its cdr,
and what has no cells ends a chain. -/
theorem induction_chain {P Q : Value → Prop}
    (hnode : ∀ v, v.cells = [] → (∀ u ∈ v.children, P u) → P v)
    (hend : ∀ v, v.cells = [] → P v → Q v)
    (hpair : ∀ origin kind tag car cdr attributes object,
      P car → Q cdr → (∀ a ∈ attributes, P a.2) →
        P (pair origin kind tag car cdr attributes object) ∧
          Q (pair origin kind tag car cdr attributes object))
    (v : Value) : P v ∧ Q v := by
  induction v using induction_children with
  | h v ih =>
    cases v with
    | pair origin kind tag car cdr attributes object =>
      have hcar := (ih car List.mem_cons_self).1
      have hcdr := (ih cdr (List.mem_cons_of_mem _ List.mem_cons_self)).2
      exact hpair origin kind tag car cdr attributes object hcar hcdr fun a ha ↦
        (ih a.2 (mem_children_of_attribute ha)).1
    | null | symbol _ | char _ | vector _ _ _ _ | list _ _ _ _ =>
      have h := hnode _ rfl fun u hu ↦ (ih u hu).1
      exact ⟨h, hend _ rfl h⟩

mutual

def nodes : Value → List Value
  | null => [null]
  | symbol name => [symbol name]
  | char content => [char content]
  | vector origin atoms attributes object =>
    vector origin atoms attributes object :: nodesOfAttributes attributes
  | list origin elements attributes object =>
    list origin elements attributes object ::
      (nodesOfAll elements ++ nodesOfAttributes attributes)
  | pair origin kind tag car cdr attributes object =>
    pair origin kind tag car cdr attributes object ::
      (car.nodes ++ (cdr.nodes ++ nodesOfAttributes attributes))
termination_by structural v => v

def nodesOfAll : List Value → List Value
  | [] => []
  | v :: vs => v.nodes ++ nodesOfAll vs
termination_by structural vs => vs

def nodesOfAttributes : List (String × Value) → List Value
  | [] => []
  | (_, v) :: as => v.nodes ++ nodesOfAttributes as
termination_by structural as => as

end

theorem nodesOfAll_eq_flatMap (vs : List Value) : nodesOfAll vs = vs.flatMap nodes := by
  induction vs with
  | nil => rfl
  | cons v vs ih => rw [nodesOfAll, ih, List.flatMap_cons]

theorem nodesOfAttributes_eq_flatMap (as : Attributes) :
    nodesOfAttributes as = (as.map Prod.snd).flatMap nodes := by
  induction as with
  | nil => rfl
  | cons a as ih => rw [nodesOfAttributes, ih, List.map_cons, List.flatMap_cons]

theorem nodes_eq (v : Value) : v.nodes = v :: v.children.flatMap nodes := by
  cases v with
  | null | symbol _ | char _ => rfl
  | vector _ _ _ _ => rw [nodes, nodesOfAttributes_eq_flatMap, children]
  | list _ _ _ _ =>
    rw [nodes, nodesOfAll_eq_flatMap, nodesOfAttributes_eq_flatMap, children, List.flatMap_append]
  | pair _ _ _ _ _ _ _ =>
    rw [nodes, nodesOfAttributes_eq_flatMap, children, List.flatMap_cons, List.flatMap_cons]

theorem self_mem_nodes (v : Value) : v ∈ v.nodes := by
  rw [nodes_eq]
  exact List.mem_cons_self

theorem nodes_subset_of_mem_children {u v : Value} (h : u ∈ v.children) : u.nodes ⊆ v.nodes := by
  intro w hw
  rw [nodes_eq v]
  exact List.mem_cons_of_mem _ (List.mem_flatMap.mpr ⟨u, h, hw⟩)

/-- Every attribute set in the graph is bound. -/
def Bound (v : Value) : Prop := ∀ u ∈ v.nodes, Attributes.Bound u.attributes

theorem Bound.attributes {v : Value} (h : v.Bound) : Attributes.Bound v.attributes :=
  h v v.self_mem_nodes

theorem Bound.of_mem_children {u v : Value} (h : v.Bound) (hu : u ∈ v.children) : u.Bound :=
  fun w hw ↦ h w (nodes_subset_of_mem_children hu hw)

theorem bound_of_children {v : Value} (has : Attributes.Bound v.attributes)
    (h : ∀ u ∈ v.children, u.Bound) : v.Bound := by
  intro u hu
  rw [nodes_eq] at hu
  rcases List.mem_cons.mp hu with rfl | hu
  · exact has
  · obtain ⟨w, hw, hu⟩ := List.mem_flatMap.mp hu
    exact h w hw u hu

theorem bound_null : null.Bound := bound_of_children (.inl rfl) nofun

theorem mem_children_of_step? {u v : Value} {step : Step} (h : v.step? step = some u) :
    u ∈ v.children := by
  cases step with
  | attr name =>
    rw [step?_attr] at h
    exact mem_children_of_attribute (Keyed.mem_of_lookup h)
  | element i =>
    cases v with
    | list _ elements _ _ => exact List.mem_append_left _ (List.mem_of_getElem? h)
    | _ => cases h
  | car =>
    cases v with
    | pair _ _ _ _ _ _ _ =>
      cases h
      exact List.mem_cons_self
    | _ => cases h
  | cdr =>
    cases v with
    | pair _ _ _ _ _ _ _ =>
      cases h
      exact List.mem_cons_of_mem _ List.mem_cons_self
    | _ => cases h

end Value

end Rds
