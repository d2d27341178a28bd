import Rds.Proofs.Graph

namespace Rds

namespace Atoms

theorem length_erase (a : Atoms) : a.erase.length = a.length := by
  cases a with
  | character xs => exact List.length_map _
  | logical _ | integer _ | double _ | complex _ | raw _ => rfl

theorem isComplete_erase (a : Atoms) : a.erase.isComplete = a.isComplete := by
  cases a with
  | character xs =>
    have hna : Chars.isNA ∘ Chars.erase = Chars.isNA := by
      funext c
      cases c <;> rfl
    rw [erase, isComplete, isComplete, missing, missing, List.map_map, hna]
  | logical _ | integer _ | double _ | complex _ | raw _ => rfl

end Atoms

namespace Value

mutual

/-- A value without its origins, and with its attributes in ascending order of their names. -/
def normal : Value → Value
  | null => null
  | symbol name => symbol name.erase
  | char content => char content.erase
  | vector _ atoms attributes object =>
    vector .nowhere atoms.erase (Keyed.sort (normalAttributes attributes)) object
  | list _ elements attributes object =>
    list .nowhere (normalAll elements) (Keyed.sort (normalAttributes attributes)) object
  | pair _ kind tag car cdr attributes object =>
    pair .nowhere kind (tag.map Chars.erase) car.normal cdr.normal
      (Keyed.sort (normalAttributes attributes)) object
termination_by structural v => v

def normalAll : List Value → List Value
  | [] => []
  | v :: vs => v.normal :: normalAll vs
termination_by structural vs => vs

def normalAttributes : List (String × Value) → List (String × Value)
  | [] => []
  | (name, v) :: as => (name, v.normal) :: normalAttributes as
termination_by structural as => as

end

theorem normalAll_eq_map (vs : List Value) : normalAll vs = vs.map normal := by
  induction vs with
  | nil => rfl
  | cons v vs ih => rw [normalAll, ih, List.map_cons]

theorem normalAttributes_eq_mapValues (as : Attributes) :
    normalAttributes as = Keyed.mapValues normal as := by
  induction as with
  | nil => rfl
  | cons a as ih =>
    rw [normalAttributes, ih]
    rfl

theorem sameAll_iff {vs ws : List Value}
    (h : ∀ v ∈ vs, ∀ w ∈ ws, same v w = true ↔ v.normal = w.normal) :
    sameAll vs ws = true ↔ normalAll vs = normalAll ws := by
  induction vs generalizing ws with
  | nil => cases ws <;> simp [sameAll, normalAll]
  | cons v vs ih =>
    cases ws with
    | nil => simp [sameAll, normalAll]
    | cons w ws =>
      have hfirst := h v List.mem_cons_self w List.mem_cons_self
      have hrest := ih fun x hx y hy ↦ h x (List.mem_cons_of_mem _ hx) y (List.mem_cons_of_mem _ hy)
      rw [sameAll, normalAll, normalAll, Bool.and_eq_true, hfirst, hrest, List.cons.injEq]

theorem within_iff {as bs : Attributes} :
    within as bs = true ↔ ∀ a ∈ as, ∃ w, bs.lookup a.1 = some w ∧ same a.2 w = true := by
  induction as with
  | nil => simp [within]
  | cons a as ih =>
    obtain ⟨name, v⟩ := a
    rw [within, Bool.and_eq_true, ih, List.forall_mem_cons]
    cases bs.lookup name <;> simp

theorem attributes_iff {as bs : Attributes} (ha : Attributes.Bound as) (hb : Attributes.Bound bs)
    (h : ∀ a ∈ as, ∀ b ∈ bs, same a.2 b.2 = true ↔ a.2.normal = b.2.normal) :
    (as.length = bs.length ∧ within as bs = true) ↔
      Keyed.sort (normalAttributes as) = Keyed.sort (normalAttributes bs) := by
  rw [normalAttributes_eq_mapValues, normalAttributes_eq_mapValues,
    Keyed.sort_mapValues_eq_iff normal (Attributes.nodup_names ha.ordered)
      (Attributes.nodup_names hb.ordered), within_iff]
  refine and_congr_right fun _ ↦ forall₂_congr fun a hmem ↦ exists_congr fun w ↦
    and_congr_right fun hw ↦ h a hmem (a.1, w) (Keyed.mem_of_lookup hw)

/-- Values are equal if they have one normal form. -/
theorem same_iff_normal {v w : Value} (hv : v.Bound) (hw : w.Bound) :
    same v w = true ↔ v.normal = w.normal := by
  induction v using induction_children generalizing w with
  | h v ih =>
    have hbelow {x y : Value} (hx : x ∈ v.children) (hy : y ∈ w.children) :
        same x y = true ↔ x.normal = y.normal :=
      ih x hx (hv.of_mem_children hx) (hw.of_mem_children hy)
    have hset := attributes_iff hv.attributes hw.attributes fun a ha b hb ↦
      hbelow (mem_children_of_attribute ha) (mem_children_of_attribute hb)
    cases v with
    | null => cases w <;> simp [same, normal]
    | symbol name =>
      cases w with
      | symbol name' => rw [same, normal, normal, symbol.injEq, Chars.beq_iff_erase]
      | _ => simp [same, normal]
    | char content =>
      cases w with
      | char content' => rw [same, normal, normal, char.injEq, Chars.beq_iff_erase]
      | _ => simp [same, normal]
    | vector origin atoms as object =>
      cases w with
      | vector origin' atoms' bs object' =>
        simp only [attributes, attributes?, Option.getD_some] at hset
        simp only [same, normal, vector.injEq, true_and, ← hset, ← Atoms.beq_iff_erase,
          Bool.and_eq_true, beq_iff_eq]
        tauto
      | _ => simp [same, normal]
    | list origin es as object =>
      cases w with
      | list origin' fs bs object' =>
        have helements := sameAll_iff fun x hx y hy ↦
          hbelow (List.mem_append_left _ hx) (List.mem_append_left _ hy)
        simp only [attributes, attributes?, Option.getD_some] at hset
        simp only [same, normal, list.injEq, true_and, ← hset, ← helements, Bool.and_eq_true,
          beq_iff_eq]
        tauto
      | _ => simp [same, normal]
    | pair origin kind tag car cdr as object =>
      cases w with
      | pair origin' kind' tag' car' cdr' bs object' =>
        have hcar : same car car' = true ↔ _ := hbelow List.mem_cons_self List.mem_cons_self
        have hcdr : same cdr cdr' = true ↔ _ :=
          hbelow (List.mem_cons_of_mem _ List.mem_cons_self)
            (List.mem_cons_of_mem _ List.mem_cons_self)
        simp only [attributes, attributes?, Option.getD_some] at hset
        simp only [same, normal, pair.injEq, true_and, ← hset, ← hcar, ← hcdr,
          ← Chars.beq_option_iff_erase, Bool.and_eq_true, beq_iff_eq]
        tauto
      | _ => simp [same, normal]

theorem kind_normal (v : Value) : v.normal.kind = v.kind := by
  cases v with
  | vector _ atoms _ _ => exact atoms.kind_erase
  | null | symbol _ | char _ | list _ _ _ _ | pair _ _ _ _ _ _ _ => rfl

theorem isComplete?_normal (v : Value) : v.normal.isComplete? = v.isComplete? := by
  cases v with
  | vector _ atoms _ _ => exact congrArg some atoms.isComplete_erase
  | null | symbol _ | char _ | list _ _ _ _ | pair _ _ _ _ _ _ _ => rfl

theorem length_cells_normal (v : Value) : v.normal.cells.length = v.cells.length := by
  match v with
  | pair _ _ _ _ cdr _ _ =>
    rw [normal, cells_pair, cells_pair, List.length_cons, List.length_cons,
      length_cells_normal cdr]
  | null | symbol _ | char _ | vector _ _ _ _ | list _ _ _ _ => rfl
termination_by structural v

theorem length_normal (v : Value) : v.normal.length = v.length := by
  cases v with
  | vector _ atoms _ _ => exact atoms.length_erase
  | list _ elements _ _ => simp [normal, length, normalAll_eq_map]
  | pair origin kind tag car cdr as object =>
    exact length_cells_normal (pair origin kind tag car cdr as object)
  | null | symbol _ | char _ => rfl

theorem attributes_normal (v : Value) :
    v.normal.attributes = Keyed.sort (Keyed.mapValues normal v.attributes) := by
  cases v with
  | null | symbol _ | char _ => exact (Keyed.sort_perm []).eq_nil.symm
  | vector _ _ _ _ | list _ _ _ _ | pair _ _ _ _ _ _ _ =>
    simp only [normal, normalAttributes_eq_mapValues]
    rfl

theorem step?_normal {v : Value} (hv : v.Bound) (step : Step) :
    v.normal.step? step = (v.step? step).map normal := by
  cases step with
  | attr name =>
    have hn := Attributes.nodup_names hv.attributes.ordered
    rw [step?_attr, step?_attr, attributes_normal, Keyed.lookup_sort, Keyed.lookup_mapValues]
    rwa [Keyed.names_mapValues]
  | element i =>
    cases v with
    | list _ elements _ _ => simp [normal, step?, normalAll_eq_map]
    | _ => rfl
  | car => cases v <;> rfl
  | cdr => cases v <;> rfl

end Value

end Rds
