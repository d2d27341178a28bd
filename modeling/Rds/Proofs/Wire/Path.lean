import Rds.Proofs.Path
import Rds.Proofs.Wire.Meaning

namespace Rds.Wire

open Item Value

section Defs

variable (stream : Nat) (T : ReferenceTable)

/-- The place of the car of the last cell of a chain with the tag. -/
def tagged? (name : String) : Wire → Nat → Option Place
  | cell _ part? tag? car cdr, p =>
    (cdr.tagged? name (cdrAt part? tag? car p)).or
      (if (tagName? stream T tag? (tagAt part? p)).join.bind Chars.text? = some name then
        some ⟨carAt part? tag? p, car⟩
      else none)
  | _, _ => none
termination_by structural w => w

namespace Place

def value? (x : Place) : Option Value := x.item.value? stream T x.offset

def step? (x : Place) : Step → Option Place
  | .element i =>
    match x.item with
    | list _ elements _ => (locate elements (elementsAt elements x.offset))[i]?
    | _ => none
  | .car =>
    match x.item with
    | cell _ part? tag? car _ => some ⟨carAt part? tag? x.offset, car⟩
    | _ => none
  | .cdr =>
    match x.item with
    | cell _ part? tag? car cdr => some ⟨cdrAt part? tag? car x.offset, cdr⟩
    | _ => none
  | .attr name =>
    x.item.attributes?.bind fun w ↦ w.tagged? stream T name (x.item.attributesAt x.offset)

def at? (x : Place) : List Step → Option Place
  | [] => some x
  | step :: path => (x.step? stream T step).bind (·.at? path)

end Place

end Defs

variable {stream : Nat} {T : ReferenceTable}

theorem rel_or {α β : Type} {r : α → β → Prop} {a c : Option α} {b d : Option β}
    (h : Option.Rel r a b) (h' : Option.Rel r c d) : Option.Rel r (a.or c) (b.or d) := by
  cases h with
  | some hab => exact .some hab
  | none => exact h'

/-- A chain of items and its value have the same tags. -/
theorem tagged?_rel (hT : T.Symbolic) {w : Wire} {p : Nat} {v : Value}
    (h : w.value? stream T p = some v) (name : String) :
    Option.Rel (fun u y ↦ y.value? stream T = some u) (v.tagged? name)
      (w.tagged? stream T name p) := by
  match w with
  | cell word part? tag? car cdr =>
    cases evaluates_of_value? hT h with
    | cell hkind has htag ha hd =>
      next tag _ _ =>
      have ih := tagged?_rel hT hd name
      rw [Value.tagged?, tagged?, htag]
      refine rel_or ih ?_
      rw [Option.join_some]
      by_cases htext : tag.bind Chars.text? = some name
      · rw [if_pos htext, if_pos htext]
        exact .some ha
      · rw [if_neg htext, if_neg htext]
        exact .none
  | null _ => cases evaluates_of_value? hT h; exact .none
  | reference _ _ => cases evaluates_of_value? hT h; exact .none
  | char _ _ _ => cases evaluates_of_value? hT h; exact .none
  | symbol _ _ => cases evaluates_of_value? hT h; exact .none
  | atoms _ _ _ => cases evaluates_of_value? hT h; exact .none
  | strings _ _ _ => cases evaluates_of_value? hT h; exact .none
  | list _ _ _ => cases evaluates_of_value? hT h; exact .none
termination_by structural w

theorem toOption_eq_some {ε α : Type} {x : Except ε α} {a : α} (h : x.toOption = some a) :
    x = .ok a := by
  cases x <;> cases h
  rfl

theorem getElem?_values {ws : List Wire} {p : Nat} {vs : List Value}
    (h : values? stream T ws p = some vs) {i : Nat} {u : Value} (hu : vs[i]? = some u) :
    ∃ y, (locate ws p)[i]? = some y ∧ y.value? stream T = some u := by
  induction ws generalizing p vs i with
  | nil =>
    cases h
    cases hu
  | cons w ws ih =>
    obtain ⟨v, hv, h⟩ := Option.bind_eq_some_iff.mp h
    obtain ⟨vs', hvs, h⟩ := Option.bind_eq_some_iff.mp h
    cases h
    cases i with
    | zero =>
      cases hu
      exact ⟨⟨p, w⟩, rfl, hv⟩
    | succ i => exact ih hvs hu

theorem attributes_evaluate (hT : T.Symbolic) {w : Wire} {p : Nat} {v : Value}
    (h : w.value? stream T p = some v) :
    attributeSet? stream T w.attributes? (w.attributesAt p) = some v.attributes := by
  cases evaluates_of_value? hT h with
  | null _ _ => rfl
  | reference _ => rfl
  | char _ _ _ _ => rfl
  | symbol _ => rfl
  | atoms has => exact has
  | strings has => exact has
  | list _ has => exact has
  | cell _ has _ _ _ => exact has

namespace Place

variable {x y z : Place} {v u : Value}

theorem step?_evaluates (hT : T.Symbolic) (h : x.value? stream T = some v) {step : Step}
    (hu : v.step? step = some u) :
    ∃ y, x.step? stream T step = some y ∧ y.value? stream T = some u := by
  obtain ⟨p, w⟩ := x
  cases step with
  | element i =>
    cases evaluates_of_value? hT h with
    | list hvs _ => exact getElem?_values hvs hu
    | _ => cases hu
  | car =>
    cases evaluates_of_value? hT h with
    | cell _ _ _ ha _ =>
      cases hu
      exact ⟨_, rfl, ha⟩
    | _ => cases hu
  | cdr =>
    cases evaluates_of_value? hT h with
    | cell _ _ _ _ hd =>
      cases hu
      exact ⟨_, rfl, hd⟩
    | _ => cases hu
  | attr name =>
    have has := attributes_evaluate hT h
    have hlookup : v.attributes.lookup name = some u := (v.step?_attr name).symm.trans hu
    cases hw : w.attributes? with
    | none =>
      rw [hw] at has
      rw [← Option.some.inj has] at hlookup
      cases hlookup
    | some a =>
      rw [hw] at has
      obtain ⟨av, hav, hbind⟩ := Option.bind_eq_some_iff.mp has
      have hrel := tagged?_rel hT hav name
      rw [← Attributes.lookup_bind (toOption_eq_some hbind) name, hlookup] at hrel
      generalize hy : a.tagged? stream T name (w.attributesAt p) = y? at hrel
      cases hrel with
      | some hyu =>
        next y =>
        refine ⟨y, ?_, hyu⟩
        rw [step?, hw]
        exact hy

theorem at?_evaluates (hT : T.Symbolic) {path : List Step} (h : x.value? stream T = some v)
    (hu : v.at? path = some u) :
    ∃ y, x.at? stream T path = some y ∧ y.value? stream T = some u := by
  induction path generalizing x v with
  | nil =>
    cases hu
    exact ⟨x, rfl, h⟩
  | cons step path ih =>
    obtain ⟨w, hw, hu⟩ := Value.at?_cons hu
    obtain ⟨y, hy, hv⟩ := step?_evaluates hT h hw
    obtain ⟨z, hz, hu⟩ := ih hv hu
    exact ⟨z, Option.bind_eq_some_iff.mpr ⟨y, hy, hz⟩, hu⟩

theorem origin_eq (hT : T.Symbolic) (h : x.value? stream T = some v) {origin : Origin}
    (ho : v.origin? = some origin) : origin = ⟨stream, x.offset⟩ := by
  obtain ⟨p, w⟩ := x
  cases evaluates_of_value? hT h with
  | null _ _ => cases ho
  | reference _ => cases ho
  | char _ _ _ _ => cases ho
  | symbol _ => cases ho
  | atoms _ => exact (Option.some.inj ho).symm
  | strings _ => exact (Option.some.inj ho).symm
  | list _ _ => exact (Option.some.inj ho).symm
  | cell _ _ _ _ _ => exact (Option.some.inj ho).symm

def Clear (x y : Place) : Prop := x.stop ≤ y.offset ∨ y.stop ≤ x.offset

theorem Clear.symm (h : Clear x y) : Clear y x := Or.symm h

theorem Clear.offset_ne (h : Clear x y) {x' y' : Place} (hx : x' ∈ x.all) (hy : y' ∈ y.all) :
    x'.offset ≠ y'.offset := by
  have hx' := mem_all hx
  have hy' := mem_all hy
  have hposx := four_le_length_bytes x'.item
  have hposy := four_le_length_bytes y'.item
  simp only [Clear, stop] at h hx' hy'
  intro he
  rcases h with h | h <;> omega

theorem Clear.of_mem_all (h : Clear x y) {x' : Place} (hx : x' ∈ x.all) : Clear x' y := by
  have hx' := mem_all hx
  rcases h with h | h
  · exact .inl (Nat.le_trans hx'.2 h)
  · exact .inr (Nat.le_trans h hx'.1)

theorem attributes_mem_parts {w a : Wire} (h : w.attributes? = some a) (p : Nat) :
    (⟨w.attributesAt p, a⟩ : Place) ∈ (⟨p, w⟩ : Place).parts := by
  cases w with
  | atoms _ _ part? =>
    obtain rfl : part? = some a := h
    exact List.mem_cons_self
  | strings _ elements part? | list _ elements part? =>
    obtain rfl : part? = some a := h
    rw [parts, Wire.parts, locate_append]
    exact List.mem_append_right _ List.mem_cons_self
  | cell _ part? _ _ _ =>
    obtain rfl : part? = some a := h
    exact List.mem_cons_self
  | _ => cases h

theorem parts_cell (p : Nat) (word : FlagWord) (part? tag? : Option Wire) (car cdr : Wire) :
    (⟨p, cell word part? tag? car cdr⟩ : Place).parts =
      locate part?.toList (p + 4) ++ (locate tag?.toList (tagAt part? p) ++
        [⟨carAt part? tag? p, car⟩, ⟨cdrAt part? tag? car p, cdr⟩]) := by
  rw [parts, Wire.parts, locate_append, locate_append, ← bytesOfPart_eq, ← bytesOfPart_eq]
  rfl

theorem car_mem_parts (p : Nat) (word : FlagWord) (part? tag? : Option Wire) (car cdr : Wire) :
    (⟨carAt part? tag? p, car⟩ : Place) ∈ (⟨p, cell word part? tag? car cdr⟩ : Place).parts := by
  rw [parts_cell]
  exact List.mem_append_right _ (List.mem_append_right _ List.mem_cons_self)

theorem cdr_mem_parts (p : Nat) (word : FlagWord) (part? tag? : Option Wire) (car cdr : Wire) :
    (⟨cdrAt part? tag? car p, cdr⟩ : Place) ∈
      (⟨p, cell word part? tag? car cdr⟩ : Place).parts := by
  rw [parts_cell]
  apply List.mem_append_right
  apply List.mem_append_right
  exact List.mem_cons_of_mem _ List.mem_cons_self

theorem mem_all_of_tagged? {name : String} {w : Wire} {p : Nat} {y : Place}
    (h : w.tagged? stream T name p = some y) : y ∈ all ⟨p, w⟩ := by
  match w with
  | cell word part? tag? car cdr =>
    rw [tagged?] at h
    rcases Option.or_eq_some_iff.mp h with h | ⟨-, h⟩
    · exact mem_all_of_mem_parts (cdr_mem_parts p word part? tag? car cdr) (mem_all_of_tagged? h)
    · split at h
      · cases h
        exact mem_all_of_mem_parts (car_mem_parts p word part? tag? car cdr) (mem_all_self _)
      · cases h
  | null _ => cases h
  | reference _ _ => cases h
  | char _ _ _ => cases h
  | symbol _ _ => cases h
  | atoms _ _ _ => cases h
  | strings _ _ _ => cases h
  | list _ _ _ => cases h
termination_by structural w

theorem clear_car_cdr (p : Nat) (part? tag? : Option Wire) (car cdr : Wire) :
    Clear ⟨carAt part? tag? p, car⟩ ⟨cdrAt part? tag? car p, cdr⟩ := .inl (Nat.le_refl _)

theorem clear_of_tagged? {m n : String} (hmn : m ≠ n) {w : Wire} {p : Nat} {y z : Place}
    (hy : w.tagged? stream T m p = some y) (hz : w.tagged? stream T n p = some z) :
    Clear y z := by
  match w with
  | cell word part? tag? car cdr =>
    have hclear := clear_car_cdr p part? tag? car cdr
    rw [tagged?] at hy hz
    rcases Option.or_eq_some_iff.mp hy with hy | ⟨-, hy⟩
    · rcases Option.or_eq_some_iff.mp hz with hz | ⟨-, hz⟩
      · exact clear_of_tagged? hmn hy hz
      · split at hz
        · cases hz
          exact hclear.symm.of_mem_all (mem_all_of_tagged? hy)
        · cases hz
    · split at hy
      · next hm =>
        cases hy
        rcases Option.or_eq_some_iff.mp hz with hz | ⟨-, hz⟩
        · exact (hclear.symm.of_mem_all (mem_all_of_tagged? hz)).symm
        · rw [if_neg fun hn ↦ hmn (Option.some.inj (hm.symm.trans hn))] at hz
          cases hz
      · cases hy
  | null _ => cases hy
  | reference _ _ => cases hy
  | char _ _ _ => cases hy
  | symbol _ _ => cases hy
  | atoms _ _ _ => cases hy
  | strings _ _ _ => cases hy
  | list _ _ _ => cases hy
termination_by structural w

theorem mem_parts_of_element {p i : Nat} {word : FlagWord} {elements : List Wire}
    {part? : Option Wire} (h : (locate elements (elementsAt elements p))[i]? = some y) :
    y ∈ (⟨p, list word elements part?⟩ : Place).parts := by
  rw [parts, Wire.parts, locate_append]
  exact List.mem_append_left _ (List.mem_of_getElem? h)

theorem mem_of_step? {step : Step} (h : x.step? stream T step = some y) :
    ∃ z ∈ x.parts, y ∈ z.all := by
  obtain ⟨p, w⟩ := x
  cases step with
  | element i =>
    cases w with
    | list word elements part? => exact ⟨y, mem_parts_of_element h, mem_all_self y⟩
    | _ => cases h
  | car =>
    cases w with
    | cell word part? tag? car cdr =>
      cases h
      exact ⟨_, car_mem_parts p word part? tag? car cdr, mem_all_self _⟩
    | _ => cases h
  | cdr =>
    cases w with
    | cell word part? tag? car cdr =>
      cases h
      exact ⟨_, cdr_mem_parts p word part? tag? car cdr, mem_all_self _⟩
    | _ => cases h
  | attr name =>
    obtain ⟨a, ha, h⟩ := Option.bind_eq_some_iff.mp h
    exact ⟨_, attributes_mem_parts ha p, mem_all_of_tagged? h⟩

theorem mem_all_of_at? {path : List Step} (h : x.at? stream T path = some y) : y ∈ x.all := by
  induction path generalizing x with
  | nil =>
    cases h
    exact mem_all_self _
  | cons step path ih =>
    obtain ⟨z, hz, h⟩ := Option.bind_eq_some_iff.mp h
    obtain ⟨a, ha, hza⟩ := mem_of_step? hz
    exact mem_all_trans (mem_all_of_mem_parts ha hza) (ih h)

theorem clear_of_getElem? {ws : List Wire} {p i j : Nat} (hij : i < j)
    (hy : (locate ws p)[i]? = some y) (hz : (locate ws p)[j]? = some z) : Clear y z := by
  obtain ⟨hi, rfl⟩ := List.getElem?_eq_some_iff.mp hy
  obtain ⟨hj, rfl⟩ := List.getElem?_eq_some_iff.mp hz
  exact .inl (List.pairwise_iff_getElem.mp (pairwise_locate ws p) i j hi hj hij)

theorem clear_attributes {w a : Wire} {p : Nat} (ha : w.attributes? = some a) {step : Step}
    (hstep : ∀ name, step ≠ .attr name) (hy : Place.step? stream T ⟨p, w⟩ step = some y) :
    Clear y ⟨w.attributesAt p, a⟩ := by
  cases step with
  | attr name => exact absurd rfl (hstep name)
  | element i =>
    cases w with
    | list word elements part? => exact .inl (mem_locate (List.mem_of_getElem? hy)).2.2
    | _ => cases hy
  | car =>
    cases w with
    | cell word part? tag? car cdr =>
      cases hy
      obtain rfl : part? = some a := ha
      exact .inr (Nat.le_add_right _ _)
    | _ => cases hy
  | cdr =>
    cases w with
    | cell word part? tag? car cdr =>
      cases hy
      obtain rfl : part? = some a := ha
      exact .inr (Nat.le_trans (Nat.le_add_right _ _) (Nat.le_add_right _ _))
    | _ => cases hy

theorem clear_of_attr {name : String} {step : Step} (hstep : ∀ name, step ≠ .attr name)
    (hy : x.step? stream T (.attr name) = some y) (hz : x.step? stream T step = some z) :
    Clear y z := by
  obtain ⟨a, ha, hy⟩ := Option.bind_eq_some_iff.mp hy
  exact (clear_attributes ha hstep hz).symm.of_mem_all (mem_all_of_tagged? hy)

theorem clear_of_elements {i j : Nat} (hne : i ≠ j)
    (hy : x.step? stream T (.element i) = some y) (hz : x.step? stream T (.element j) = some z) :
    Clear y z := by
  obtain ⟨p, w⟩ := x
  cases w with
  | list word elements part? =>
    rcases Nat.lt_or_gt_of_ne hne with hij | hji
    · exact clear_of_getElem? hij hy hz
    · exact (clear_of_getElem? hji hz hy).symm
  | _ => cases hy

theorem clear_of_car_cdr (hy : x.step? stream T .car = some y)
    (hz : x.step? stream T .cdr = some z) : Clear y z := by
  obtain ⟨p, w⟩ := x
  cases w with
  | cell word part? tag? car cdr =>
    cases hy
    cases hz
    exact clear_car_cdr p part? tag? car cdr
  | _ => cases hy

theorem not_element_and_cell {i : Nat} (hy : x.step? stream T (.element i) = some y) :
    x.step? stream T .car = none ∧ x.step? stream T .cdr = none := by
  obtain ⟨p, w⟩ := x
  cases w with
  | list _ _ _ => exact ⟨rfl, rfl⟩
  | _ => cases hy

theorem clear_of_step? {step step' : Step} (hne : step ≠ step')
    (hy : x.step? stream T step = some y) (hz : x.step? stream T step' = some z) : Clear y z := by
  cases step with
  | attr name =>
    cases step' with
    | attr name' =>
      obtain ⟨a, ha, hy⟩ := Option.bind_eq_some_iff.mp hy
      obtain ⟨b, hb, hz⟩ := Option.bind_eq_some_iff.mp hz
      cases ha.symm.trans hb
      exact clear_of_tagged? (fun he ↦ hne (congrArg _ he)) hy hz
    | element _ | car | cdr => exact clear_of_attr (fun _ h ↦ by cases h) hy hz
  | element i =>
    cases step' with
    | attr name => exact (clear_of_attr (fun _ h ↦ by cases h) hz hy).symm
    | element j => exact clear_of_elements (fun he ↦ hne (congrArg _ he)) hy hz
    | car => cases (not_element_and_cell hy).1.symm.trans hz
    | cdr => cases (not_element_and_cell hy).2.symm.trans hz
  | car =>
    cases step' with
    | attr name => exact (clear_of_attr (fun _ h ↦ by cases h) hz hy).symm
    | element j => cases (not_element_and_cell hz).1.symm.trans hy
    | car => exact absurd rfl hne
    | cdr => exact clear_of_car_cdr hy hz
  | cdr =>
    cases step' with
    | attr name => exact (clear_of_attr (fun _ h ↦ by cases h) hz hy).symm
    | element j => cases (not_element_and_cell hz).2.symm.trans hy
    | car => exact (clear_of_car_cdr hz hy).symm
    | cdr => exact absurd rfl hne

/-- Different paths lead to different places. -/
theorem offset_ne_of_at? {path path' : List Step} (hne : path ≠ path')
    (hy : x.at? stream T path = some y) (hz : x.at? stream T path' = some z) :
    y.offset ≠ z.offset := by
  have hlt {step : Step} {path : List Step} {x y : Place}
      (h : x.at? stream T (step :: path) = some y) : x.offset < y.offset := by
    obtain ⟨a, ha, h⟩ := Option.bind_eq_some_iff.mp h
    obtain ⟨b, hb, hab⟩ := mem_of_step? ha
    exact Nat.lt_of_lt_of_le (mem_parts hb).2.1 (mem_all (mem_all_trans hab (mem_all_of_at? h))).1
  induction path generalizing x path' with
  | nil =>
    cases path' with
    | nil => exact absurd rfl hne
    | cons step' path' =>
      cases hy
      exact Nat.ne_of_lt (hlt hz)
  | cons step path ih =>
    cases path' with
    | nil =>
      cases hz
      exact Nat.ne_of_gt (hlt hy)
    | cons step' path' =>
      obtain ⟨a, ha, hy⟩ := Option.bind_eq_some_iff.mp hy
      obtain ⟨b, hb, hz⟩ := Option.bind_eq_some_iff.mp hz
      by_cases hs : step = step'
      · obtain rfl := hs
        cases ha.symm.trans hb
        exact ih (fun he ↦ hne (congrArg _ he)) hy hz
      · exact (clear_of_step? hs ha hb).offset_ne (mem_all_of_at? hy) (mem_all_of_at? hz)

end Place

end Rds.Wire
