import Mathlib.Algebra.Group.Nat.Defs
import Rds.Proofs.Erasure
import Rds.Proofs.Keyed
import Rds.Proofs.Utf8

namespace Rds

def Chars.Storable : Chars → Prop
  | .na => True
  | .text _ s => (Utf8.encode s).length < 2 ^ 31

def Atoms.Storable (a : Atoms) : Prop :=
  a.length < 2 ^ 31 ∧ ∀ xs, a = .character xs → ∀ x ∈ xs, x.Storable

/-- An attribute set is empty or comes from a chain. -/
def Attributes.Bound (as : Attributes) : Prop := as = [] ∨ ∃ v, bind v = .ok as

namespace Value

mutual

/-- Every attribute set is bound, and every length fits a word of the format. -/
def Storable : Value → Prop
  | null => True
  | symbol name => name.Storable
  | char content => content.Storable
  | vector _ atoms attributes _ =>
    atoms.Storable ∧ Attributes.Bound attributes ∧ AttributesStorable attributes
  | list _ elements attributes _ =>
    elements.length < 2 ^ 31 ∧ AllStorable elements ∧
      Attributes.Bound attributes ∧ AttributesStorable attributes
  | pair _ _ tag car cdr attributes _ =>
    (∀ name ∈ tag, name.Storable) ∧ car.Storable ∧ cdr.Storable ∧
      Attributes.Bound attributes ∧ AttributesStorable attributes
termination_by structural v => v

def AllStorable : List Value → Prop
  | [] => True
  | v :: vs => v.Storable ∧ AllStorable vs
termination_by structural vs => vs

def AttributesStorable : List (String × Value) → Prop
  | [] => True
  | (name, v) :: as => (Utf8.encode name).length < 2 ^ 31 ∧ v.Storable ∧ AttributesStorable as
termination_by structural as => as

end

theorem AllStorable.of_mem {vs : List Value} (h : AllStorable vs) {v : Value} (hv : v ∈ vs) :
    v.Storable := by
  induction vs with
  | nil => cases hv
  | cons w vs ih =>
    obtain ⟨hw, hvs⟩ := h
    obtain rfl | hv := List.mem_cons.mp hv
    · exact hw
    · exact ih hvs hv

theorem AttributesStorable.of_mem {as : Attributes} (h : AttributesStorable as)
    {a : String × Value} (ha : a ∈ as) : a.2.Storable := by
  induction as with
  | nil => cases ha
  | cons b as ih =>
    obtain ⟨-, hb, has⟩ := h
    obtain rfl | ha := List.mem_cons.mp ha
    · exact hb
    · exact ih has ha

end Value

namespace Attributes

open Value

theorem Bound.ordered {as : Attributes} (h : as.Bound) : as.Pairwise Before := by
  obtain rfl | ⟨v, hv⟩ := h
  · exact .nil
  · exact (canonical_of_bind hv).1.ordered

theorem eraseAttributes_eq_map (as : Attributes) :
    eraseAttributes as = as.map fun a ↦ (a.1, a.2.erase) := by
  induction as with
  | nil => rfl
  | cons a as ih => rw [eraseAttributes, ih, List.map_cons]

theorem length_of_erase {as bs : Attributes} (h : eraseAttributes as = eraseAttributes bs) :
    as.length = bs.length := by
  have := congrArg List.length h
  rwa [eraseAttributes_eq_map, eraseAttributes_eq_map, List.length_map, List.length_map] at this

theorem Bound.bind_chain {as : Attributes} (h : as.Bound) (hne : as ≠ []) :
    bind (chain as) = .ok as := by
  obtain rfl | ⟨v, hv⟩ := h
  · exact absurd rfl hne
  · exact Attributes.bind_chain (canonical_of_bind hv).1 hne

theorem storable_chain {as : Attributes} (h : AttributesStorable as) : (chain as).Storable := by
  induction as with
  | nil => trivial
  | cons a as ih =>
    obtain ⟨hname, hv, has⟩ := h
    exact ⟨fun _ hc ↦ by cases hc; exact hname, hv, ih has, .inl rfl, trivial⟩

theorem found_of_erase {as bs : Attributes} (h : eraseAttributes as = eraseAttributes bs)
    (hb : bs.Bound) (hbs : AttributesStorable bs) (a : String × Value) (ha : a ∈ as) :
    ∃ w, bs.lookup a.1 = some w ∧ a.2.erase = w.erase ∧ w.Storable := by
  have hm : (a.1, a.2.erase) ∈ bs.map fun b ↦ (b.1, b.2.erase) := by
    rw [← eraseAttributes_eq_map, ← h, eraseAttributes_eq_map]
    exact List.mem_map_of_mem ha
  obtain ⟨b, hmem, he⟩ := List.mem_map.mp hm
  obtain ⟨hname, hvalue⟩ := Prod.mk.inj he
  have hlookup := Keyed.lookup_of_mem (nodup_names hb.ordered) hmem
  exact ⟨b.2, hname ▸ hlookup, hvalue.symm, hbs.of_mem hmem⟩

end Attributes

namespace Value

mutual

/-- Values that differ in origins alone are equal. -/
theorem same_of_erase {v w : Value} (h : v.erase = w.erase) (hw : w.Storable) :
    same v w = true := by
  match v with
  | .null =>
    cases w with
    | null => rfl
    | _ => cases h
  | .symbol name =>
    cases w with
    | symbol d => exact Chars.beq_iff_erase.mpr (symbol.inj h)
    | _ => cases h
  | .char content =>
    cases w with
    | char d => exact Chars.beq_iff_erase.mpr (char.inj h)
    | _ => cases h
  | .vector _ atoms as o =>
    cases w with
    | vector _ atoms' bs o' =>
      obtain ⟨-, ha, has, ho⟩ := vector.inj h
      obtain ⟨-, hb, hbs⟩ := hw
      simp only [same, Bool.and_eq_true, beq_iff_eq]
      exact ⟨⟨⟨ho, Atoms.beq_iff_erase.mpr ha⟩, Attributes.length_of_erase has⟩,
        within_of_erase (Attributes.found_of_erase has hb hbs)⟩
    | _ => cases h
  | .list _ es as o =>
    cases w with
    | list _ fs bs o' =>
      obtain ⟨-, he, has, ho⟩ := list.inj h
      obtain ⟨-, hfs, hb, hbs⟩ := hw
      simp only [same, Bool.and_eq_true, beq_iff_eq]
      exact ⟨⟨⟨ho, Attributes.length_of_erase has⟩,
        within_of_erase (Attributes.found_of_erase has hb hbs)⟩, sameAll_of_erase he hfs⟩
    | _ => cases h
  | .pair _ kind tag car cdr as o =>
    cases w with
    | pair _ kind' tag' car' cdr' bs o' =>
      obtain ⟨-, hk, ht, hcar, hcdr, has, ho⟩ := pair.inj h
      obtain ⟨-, hwcar, hwcdr, hb, hbs⟩ := hw
      simp only [same, Bool.and_eq_true, beq_iff_eq]
      exact ⟨⟨⟨⟨⟨⟨ho, hk⟩, Chars.beq_option_iff_erase.mpr ht⟩, Attributes.length_of_erase has⟩,
        within_of_erase (Attributes.found_of_erase has hb hbs)⟩, same_of_erase hcar hwcar⟩,
        same_of_erase hcdr hwcdr⟩
    | _ => cases h
termination_by structural v

theorem sameAll_of_erase {vs ws : List Value} (h : eraseAll vs = eraseAll ws)
    (hw : AllStorable ws) : sameAll vs ws = true := by
  match vs with
  | [] =>
    cases ws with
    | nil => rfl
    | cons w ws => cases h
  | v :: vs =>
    cases ws with
    | nil => cases h
    | cons w ws =>
      obtain ⟨hv, hvs⟩ := List.cons.inj h
      rw [sameAll, Bool.and_eq_true]
      exact ⟨same_of_erase hv hw.1, sameAll_of_erase hvs hw.2⟩
termination_by structural vs

theorem within_of_erase {as bs : List (String × Value)}
    (h : ∀ a ∈ as, ∃ w, bs.lookup a.1 = some w ∧ a.2.erase = w.erase ∧ w.Storable) :
    within as bs = true := by
  match as with
  | [] => rfl
  | (name, v) :: as =>
    obtain ⟨w, hl, he, hw⟩ := h _ List.mem_cons_self
    rw [within, hl, Bool.and_eq_true]
    exact ⟨same_of_erase he hw, within_of_erase fun a ha ↦ h a (List.mem_cons_of_mem _ ha)⟩
termination_by structural as

end

end Value

end Rds
