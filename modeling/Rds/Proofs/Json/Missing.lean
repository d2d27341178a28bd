import Rds.Proofs.Attributes
import Rds.Proofs.Json.Scalar
import Rds.Proofs.Missing

namespace Rds.Json

def member? (name : String) : Json → Option Json
  | object fields => fields.lookup name
  | _ => none

theorem member?_ofFields {fs : List (String × Json)} (hn : (fs.map Prod.fst).Nodup)
    (name : String) : (ofFields fs).member? name = fs.lookup name :=
  Keyed.lookup_sort hn name

theorem ofLogical_eq_null_iff {x : Logical} : ofLogical x = null ↔ x = .na := by
  cases x <;> simp [ofLogical, Logical.toBool?]

theorem ofInt32_eq_null_iff {n : Int32} : ofInt32 n = null ↔ n = Int32.minValue := by
  rw [ofInt32, naInteger]
  split_ifs with h
  · exact iff_of_true rfl h
  · refine iff_of_false (fun he ↦ ?_) h
    cases he

theorem ofChars_eq_null_iff {c : Chars} : ofChars c = null ↔ c = .na := by
  cases c <;> simp [ofChars, Chars.text?]

theorem getElem?_map_eq_null {α : Type} (xs : List α) (f : α → Json) (i : Nat) :
    (xs.map f)[i]? = some null ↔ ∃ x, xs[i]? = some x ∧ f x = null := by
  rw [List.getElem?_map, Option.map_eq_some_iff]

variable [Numerals]

def elementDocs : Atoms → List Json
  | .logical xs => xs.map ofLogical
  | .integer xs => xs.map ofInt32
  | .double xs => xs.map ofDouble
  | .complex xs => xs.map ofComplex
  | .character xs => xs.map ofChars
  | .raw xs => xs.map ofByte

theorem ofAtoms_eq (atoms : Atoms) : ofAtoms atoms = array (elementDocs atoms) := by
  cases atoms <;> rfl

/-- How a double that is not missing is shown. -/
structure PresentDoc (x : Double) (j : Json) : Prop where
  ne_null : j ≠ null
  finite : x.isFinite = true → j = number (Numerals.write x)
  nonfinite : x.isFinite = false → j = string "NaN" ∨ j = string "Inf" ∨ j = string "-Inf"
  nan : x.isNaN = true → j = string "NaN"
  infinity : x.bits = 0x7ff0000000000000 → j = string "Inf"
  negativeInfinity : x.bits = 0xfff0000000000000 → j = string "-Inf"

/-- How the elements of a vector are shown, position by position. -/
structure ShowsElements (atoms : Atoms) (items : List Json) : Prop where
  length : items.length = atoms.length
  null : ∀ i, items[i]? = some null ↔ atoms.MissingAt i
  double : ∀ xs, atoms = .double xs → ∀ (i : Nat) (x : Double), xs[i]? = some x → ¬ x.Missing →
    ∃ j, items[i]? = some j ∧ PresentDoc x j
  complex : ∀ zs, atoms = .complex zs → ∀ (i : Nat) (z : Complex), zs[i]? = some z →
    ¬ (z.re.Missing ∨ z.im.Missing) →
    ∃ j re im, items[i]? = some j ∧ j.member? "re" = some re ∧ j.member? "im" = some im ∧
      PresentDoc z.re re ∧ PresentDoc z.im im

theorem presentDoc_ofPresent (x : Double) : PresentDoc x (ofPresent x) where
  ne_null := ofPresent_ne_null x
  finite := ofPresent_of_isFinite
  nonfinite := by
    intro h
    cases hn : x.isNaN with
    | true => exact .inl (ofPresent_of_isNaN hn)
    | false =>
      rw [ofPresent_of_infinite h hn]
      cases x.isNegative with
      | true => exact .inr (.inr rfl)
      | false => exact .inr (.inl rfl)
  nan := ofPresent_of_isNaN
  infinity := by
    intro h
    rw [show x = ⟨0x7ff0000000000000⟩ from congrArg Double.mk h]
    exact ofPresent_of_infinite rfl rfl
  negativeInfinity := by
    intro h
    rw [show x = ⟨0xfff0000000000000⟩ from congrArg Double.mk h]
    exact ofPresent_of_infinite rfl rfl

theorem presentDoc_ofDouble {x : Double} (h : ¬ x.Missing) : PresentDoc x (ofDouble x) := by
  rw [ofDouble, if_neg (mt x.isNA_iff.mp h)]
  exact presentDoc_ofPresent x

theorem ofDouble_eq_null_iff {x : Double} : ofDouble x = null ↔ x.Missing := by
  by_cases h : x.Missing
  · rw [ofDouble, if_pos (x.isNA_iff.mpr h)]
    exact iff_of_true rfl h
  · exact iff_of_false (presentDoc_ofDouble h).ne_null h

theorem ofComplex_eq_null_iff {z : Complex} :
    ofComplex z = null ↔ z.re.Missing ∨ z.im.Missing := by
  rw [← z.isNA_iff, ofComplex]
  split_ifs with h
  · exact iff_of_true rfl h
  · exact iff_of_false nofun h

theorem elementDocs_null (atoms : Atoms) (i : Nat) :
    (elementDocs atoms)[i]? = some null ↔ atoms.MissingAt i := by
  cases atoms with
  | logical xs =>
    simp only [elementDocs, getElem?_map_eq_null, ofLogical_eq_null_iff, exists_eq_right,
      Atoms.MissingAt]
  | integer xs =>
    simp only [elementDocs, getElem?_map_eq_null, ofInt32_eq_null_iff, exists_eq_right,
      Atoms.MissingAt]
  | double xs => simp only [elementDocs, getElem?_map_eq_null, ofDouble_eq_null_iff, Atoms.MissingAt]
  | complex xs =>
    simp only [elementDocs, getElem?_map_eq_null, ofComplex_eq_null_iff, Atoms.MissingAt]
  | character xs =>
    simp only [elementDocs, getElem?_map_eq_null, ofChars_eq_null_iff, exists_eq_right,
      Atoms.MissingAt]
  | raw xs =>
    refine iff_of_false (fun h ↦ ?_) id
    obtain ⟨b, -, hb⟩ := (getElem?_map_eq_null xs ofByte i).mp h
    cases hb

theorem parts_of_ofComplex {z : Complex} (h : ¬ (z.re.Missing ∨ z.im.Missing)) :
    ∃ re im, (ofComplex z).member? "re" = some re ∧ (ofComplex z).member? "im" = some im ∧
      PresentDoc z.re re ∧ PresentDoc z.im im := by
  obtain ⟨hre, him⟩ := not_or.mp h
  rw [ofComplex, if_neg (mt z.isNA_iff.mp h)]
  exact ⟨ofDouble z.re, ofDouble z.im, member?_ofFields (by simp) "re",
    member?_ofFields (by simp) "im", presentDoc_ofDouble hre, presentDoc_ofDouble him⟩

theorem showsElements_elementDocs (atoms : Atoms) : ShowsElements atoms (elementDocs atoms) where
  length := by cases atoms <;> exact List.length_map _
  null := elementDocs_null atoms
  double := by
    rintro xs rfl i x hx hpresent
    exact ⟨ofDouble x, by rw [elementDocs, List.getElem?_map, hx, Option.map_some],
      presentDoc_ofDouble hpresent⟩
  complex := by
    rintro zs rfl i z hz hpresent
    obtain ⟨re, im, hparts⟩ := parts_of_ofComplex hpresent
    exact ⟨ofComplex z, re, im, by rw [elementDocs, List.getElem?_map, hz, Option.map_some], hparts⟩

theorem ShowsElements.isComplete_iff {atoms : Atoms} {items : List Json}
    (h : ShowsElements atoms items) : atoms.isComplete = false ↔ Json.null ∈ items := by
  rw [atoms.isComplete_eq_false_iff, atoms.hasMissing_iff, List.mem_iff_getElem?]
  exact exists_congr fun i ↦ (h.null i).symm

/-- The array in the document of a vector shows its elements, and exactly the missing ones as
null. It is the whole document unless there are attributes. -/
theorem ofValue_vector_elements (origin : Origin) (atoms : Atoms) (as : Attributes)
    (object : Bool) :
    ∃ items : List Json,
      (as = [] → ofValue (.vector origin atoms as object) = array items) ∧
      (as ≠ [] → (ofValue (.vector origin atoms as object)).member? "values" = some (array items)) ∧
      items.length = (Value.vector origin atoms as object).length ∧
      ((Value.vector origin atoms as object).isComplete? = some false ↔ null ∈ items) ∧
      ShowsElements atoms items := by
  have hshows := showsElements_elementDocs atoms
  refine ⟨elementDocs atoms, ?_, ?_, hshows.length, ?_, hshows⟩
  · rintro rfl
    rw [ofValue_vector, ofAtoms_eq]
    rfl
  · intro hne
    rw [ofValue_vector, ofAtoms_eq, withAttributes, if_neg]
    · exact member?_ofFields (by simp) "values"
    · rw [List.isEmpty_iff]
      intro he
      have hlisted := List.map_eq_nil_iff.mp he
      exact hne (hlisted ▸ as.listed_perm).symm.eq_nil
  · rw [Value.isComplete?, Option.some.injEq]
    exact hshows.isComplete_iff

end Rds.Json
