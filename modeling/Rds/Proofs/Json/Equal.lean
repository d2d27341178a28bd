import Rds.Json.Numerals
import Rds.Proofs.Equality
import Rds.Proofs.Json

namespace Rds.Json

open Value

variable {fs gs : List (String × Json)}

theorem ofFields_of_perm (h : fs.Perm gs) (hn : (fs.map Prod.fst).Nodup) :
    ofFields fs = ofFields gs := congrArg object (Keyed.sort_eq_of_perm h hn)

theorem withAttributes_of_perm (h : fs.Perm gs) (hn : (fs.map Prod.fst).Nodup) (typeName : String)
    (values : Json) : withAttributes typeName values fs = withAttributes typeName values gs := by
  simp only [withAttributes, ofFields_of_perm h hn, h.isEmpty_eq]

theorem ofCell_of_perm (h : fs.Perm gs) (hn : (fs.map Prod.fst).Nodup) (tag : Option Chars)
    (car : Json) : ofCell tag car fs = ofCell tag car gs := by
  simp only [ofCell, ofFields_of_perm h hn, h.isEmpty_eq]

theorem ofChars_erase (c : Chars) : ofChars c.erase = ofChars c := by
  rw [ofChars, ofChars, Chars.text?_erase]

theorem ofCell_erase (tag : Option Chars) (car : Json) (fs : List (String × Json)) :
    ofCell (tag.map Chars.erase) car fs = ofCell tag car fs := by
  cases tag with
  | none => rfl
  | some c => simp only [ofCell, Option.map_some, ofChars_erase]

section Normal

variable [Numerals]

theorem ofAtoms_erase (a : Atoms) : ofAtoms a.erase = ofAtoms a := by
  cases a with
  | character xs =>
    have herase : ofChars ∘ Chars.erase = ofChars := funext ofChars_erase
    rw [Atoms.erase, ofAtoms, ofAtoms, List.map_map, herase]
  | logical _ | integer _ | double _ | complex _ | raw _ => rfl

theorem fields_normal {as : Attributes} (h : ∀ a ∈ as, ofValue a.2.normal = ofValue a.2) :
    (Keyed.mapValues ofValue (Attributes.listed (Keyed.sort (normalAttributes as)))).Perm
      (Keyed.mapValues ofValue as.listed) := by
  have hvalues : (Keyed.mapValues normal as).map (fun a ↦ (a.1, ofValue a.2)) =
      Keyed.mapValues ofValue as := by
    rw [Keyed.mapValues, List.map_map]
    exact List.map_congr_left fun a ha ↦ congrArg (Prod.mk a.1) (h a ha)
  have hsorted : (Attributes.listed (Keyed.sort (normalAttributes as))).Perm
      (Keyed.mapValues normal as) := by
    rw [normalAttributes_eq_mapValues]
    exact (Attributes.listed_perm _).trans (Keyed.sort_perm _)
  refine (hsorted.map _).trans ?_
  rw [hvalues]
  exact (as.listed_perm.map _).symm

theorem nodup_fields {as : Attributes} (has : as.Bound) :
    ((Keyed.mapValues ofValue as.listed).map Prod.fst).Nodup := by
  rw [Keyed.names_mapValues, (as.listed_perm.map _).nodup_iff]
  exact Attributes.nodup_names has.ordered

theorem tailField_normal {v : Value} (h : ofValue v.normal = ofValue v) :
    tailField v.normal = tailField v := by
  have hnull : v.normal.isNull = v.isNull := by cases v <;> rfl
  rw [tailField, tailField, hnull, h]

/-- A graph and its normal form have one document, and as the rest of a chain they have one list of
cells and one tail. -/
theorem ofValue_normal_and_chain {v : Value} (hv : v.Bound) :
    ofValue v.normal = ofValue v ∧ v.normal.cells.map cellDoc = v.cells.map cellDoc ∧
      tailField v.normal.tail = tailField v.tail := by
  induction v using induction_children with
  | h v ih =>
    have hbelow {u : Value} (hu : u ∈ v.children) := ih u hu (hv.of_mem_children hu)
    have hn := nodup_fields hv.attributes
    have hfields := fields_normal fun a ha ↦ (hbelow (mem_children_of_attribute ha)).1
    cases v with
    | null => exact ⟨rfl, rfl, rfl⟩
    | symbol name =>
      have hdoc : ofValue (symbol name).normal = ofValue (symbol name) := by
        rw [normal, ofValue, ofValue, ofChars_erase]
      exact ⟨hdoc, rfl, tailField_normal hdoc⟩
    | char content =>
      have hdoc : ofValue (char content).normal = ofValue (char content) := by
        rw [normal, ofValue, ofValue, ofChars_erase]
      exact ⟨hdoc, rfl, tailField_normal hdoc⟩
    | vector origin atoms as object =>
      have hdoc : ofValue (vector origin atoms as object).normal =
          ofValue (vector origin atoms as object) := by
        simp only [attributes, attributes?, Option.getD_some] at hn hfields
        rw [normal, ofValue_vector, ofValue_vector, ← withAttributes_of_perm hfields.symm hn,
          ofAtoms_erase, Atoms.kind_erase]
      exact ⟨hdoc, rfl, tailField_normal hdoc⟩
    | list origin es as object =>
      have hdoc : ofValue (list origin es as object).normal =
          ofValue (list origin es as object) := by
        have helements : (normalAll es).map ofValue = es.map ofValue := by
          rw [normalAll_eq_map, List.map_map]
          exact List.map_congr_left fun e he ↦ (hbelow (List.mem_append_left _ he)).1
        simp only [attributes, attributes?, Option.getD_some] at hn hfields
        rw [normal, ofValue_list, ofValue_list, ← withAttributes_of_perm hfields.symm hn, helements]
      exact ⟨hdoc, rfl, tailField_normal hdoc⟩
    | pair origin kind tag car cdr as object =>
      obtain ⟨hcar, -, -⟩ := hbelow (u := car) List.mem_cons_self
      obtain ⟨-, hrest, htail⟩ := hbelow (u := cdr) (List.mem_cons_of_mem _ List.mem_cons_self)
      simp only [attributes, attributes?, Option.getD_some] at hn hfields
      have hcell : cellDoc ⟨.nowhere, kind, tag.map Chars.erase, car.normal,
          Keyed.sort (normalAttributes as), object⟩ =
            cellDoc ⟨origin, kind, tag, car, as, object⟩ := by
        rw [cellDoc, cellDoc, ← ofCell_of_perm hfields.symm hn, ofCell_erase, hcar]
      rw [normal, cells_pair, cells_pair, tail_pair, tail_pair, ofValue_pair, ofValue_pair,
        List.map_cons, List.map_cons, hcell, hrest, htail]
      exact ⟨rfl, rfl, rfl⟩

theorem ofValue_normal {v : Value} (hv : v.Bound) : ofValue v.normal = ofValue v :=
  (ofValue_normal_and_chain hv).1

/-- Equal graphs have one document, and one text of it. -/
theorem ofValue_eq_of_beq {a b : Value} (ha : a.Bound) (hb : b.Bound) (h : (a == b) = true) :
    ofValue a = ofValue b ∧ (ofValue a).compact = (ofValue b).compact ∧
      (ofValue a).pretty = (ofValue b).pretty := by
  have hdoc : ofValue a = ofValue b := by
    rw [← ofValue_normal ha, ← ofValue_normal hb, (same_iff_normal ha hb).mp h]
  exact ⟨hdoc, congrArg compact hdoc, congrArg pretty hdoc⟩

end Normal

theorem ofValue_reordered :
    let v := list ⟨0, 0⟩ [nanVector [("a", .null), ("b", .null)]] [("y", .null), ("x", .null)] false
    let w := list ⟨0, 9⟩ [nanVector [("b", .null), ("a", .null)]] [("x", .null), ("y", .null)] false
    v.Bound ∧ w.Bound ∧ (v == w) = true ∧ ofValue v = ofValue w ∧
      (ofValue v).pretty = (ofValue w).pretty := by
  intro v w
  have hset {m n : String} (h : Attributes.bind (Attributes.chain [(m, .null), (n, .null)]) =
      .ok [(m, .null), (n, .null)]) : (nanVector [(m, .null), (n, .null)]).Bound :=
    bound_nanVector (.inr ⟨_, h⟩) (by simp)
  have hlist {origin : Origin} {u : Value} {m n : String} (hu : u.Bound)
      (h : Attributes.bind (Attributes.chain [(m, .null), (n, .null)]) =
        .ok [(m, .null), (n, .null)]) :
      (list origin [u] [(m, .null), (n, .null)] false).Bound := by
    refine bound_of_children (.inr ⟨_, h⟩) fun x hx ↦ ?_
    simp only [children, List.map_cons, List.map_nil, List.cons_append, List.nil_append,
      List.mem_cons, List.not_mem_nil, or_false] at hx
    rcases hx with rfl | rfl | rfl
    · exact hu
    · exact bound_null
    · exact bound_null
  have hv : v.Bound := hlist (hset rfl) rfl
  have hw : w.Bound := hlist (hset rfl) rfl
  have hvw : (v == w) = true := by decide
  obtain ⟨hdoc, -, hpretty⟩ := ofValue_eq_of_beq hv hw hvw
  exact ⟨hv, hw, hvw, hdoc, hpretty⟩

end Rds.Json
