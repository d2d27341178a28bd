import Rds.Proofs.Account.Content
import Rds.Proofs.Missing
import Rds.Proofs.Wire.Path

namespace Rds

namespace Attributes

/-- What every attribute set is like: a slot holds what it is for, and no name occurs twice. The
attributes without a meaning of their own stand behind the slots. -/
structure Sound (as : Attributes) : Prop where
  names : ∀ v, as.get? "names" = some v → v.kind = .character
  dim : ∀ v, as.get? "dim" = some v → v.kind = .integer
  dimnames : ∀ v, as.get? "dimnames" = some v → v.kind = .list ∨ v.kind = .null
  rowNames : ∀ v, as.get? "row.names" = some v → v.kind = .integer ∨ v.kind = .character
  classes : ∀ v, as.get? "class" = some v → v.kind = .character
  generic : ∀ a ∈ as.others, a.1 ∉ ["names", "dim", "dimnames", "row.names", "class"]
  split : as = as.filter (fun a ↦ isSlot a.1) ++ as.others
  nodup : (as.map Prod.fst).Nodup

variable {as : Attributes}

theorem isSlot_iff (name : String) : isSlot name = true ↔ name ∈ slots := by
  rw [isSlot, List.contains_iff_mem]

theorem mem_slots_of_rank_le {m n : String} (h : rank m ≤ rank n) (hn : n ∈ slots) : m ∈ slots :=
  List.idxOf_lt_length_iff.mp (Nat.lt_of_le_of_lt h (List.idxOf_lt_length_iff.mpr hn))

theorem filter_isSlot_append (h : as.Pairwise Before) :
    as = as.filter (fun a ↦ isSlot a.1) ++ as.others := by
  induction as with
  | nil => rfl
  | cons a as ih =>
    obtain ⟨ha, has⟩ := List.pairwise_cons.mp h
    by_cases hslot : a.1 ∈ slots
    · simp only [others, List.filter_cons, (isSlot_iff a.1).mpr hslot, Bool.not_true, if_true,
        Bool.false_eq_true, if_false, List.cons_append]
      exact congrArg (a :: ·) (ih has)
    · have hrest : ∀ b ∈ a :: as, ¬ isSlot b.1 = true := by
        intro b hb hb'
        obtain rfl | hb := List.mem_cons.mp hb
        · exact hslot ((isSlot_iff b.1).mp hb')
        · exact hslot (mem_slots_of_rank_le (ha b hb).1 ((isSlot_iff b.1).mp hb'))
      have hnone : (a :: as).filter (fun b ↦ isSlot b.1) = [] := List.filter_eq_nil_iff.mpr hrest
      have hall : others (a :: as) = a :: as := by
        refine List.filter_eq_self.mpr fun b hb ↦ ?_
        rw [Bool.not_eq_true', ← Bool.not_eq_true]
        exact hrest b hb
      rw [hnone, hall, List.nil_append]

theorem admits_character {k : Kind} (h : Shape.character.admits k = true) : k = .character := by
  cases k <;> first | rfl | cases h

theorem admits_integer {k : Kind} (h : Shape.integer.admits k = true) : k = .integer := by
  cases k <;> first | rfl | cases h

theorem admits_list {k : Kind} (h : Shape.list.admits k = true) : k = .list ∨ k = .null := by
  cases k <;> first | exact .inl rfl | exact .inr rfl | cases h

theorem admits_integerOrCharacter {k : Kind} (h : Shape.integerOrCharacter.admits k = true) :
    k = .integer ∨ k = .character := by
  cases k <;> first | exact .inl rfl | exact .inr rfl | cases h

theorem Canonical.sound (h : Canonical as) : Sound as := by
  have hshape {name : String} {v : Value} (hv : as.get? name = some v) {shape : Shape}
      (hs : slotShape? name = some shape) : shape.admits v.kind = true :=
    h.admitted _ (Keyed.mem_of_lookup hv) shape hs
  exact {
    names := fun v hv ↦ admits_character (hshape hv rfl)
    dim := fun v hv ↦ admits_integer (hshape hv rfl)
    dimnames := fun v hv ↦ admits_list (hshape hv rfl)
    rowNames := fun v hv ↦ admits_integerOrCharacter (hshape hv rfl)
    classes := fun v hv ↦ admits_character (hshape hv rfl)
    generic := by
      intro a ha hmem
      have hslot := (List.mem_filter.mp ha).2
      rw [(isSlot_iff a.1).mpr hmem] at hslot
      cases hslot
    split := filter_isSlot_append h.ordered
    nodup := nodup_names h.ordered }

end Attributes

open Item Wire

/-- What a node of an object graph is like if the flag word of its item is `word`. -/
structure Node (word : FlagWord) (v : Value) : Prop where
  missing : ∀ origin atoms attributes object, v = .vector origin atoms attributes object →
    (v.isComplete? = some false ↔ atoms.HasMissing)
  sound : ∀ attributes, v.attributes? = some attributes → attributes.Sound
  flagged : ∀ attributes, v.attributes? = some attributes →
    (attributes ≠ [] ↔ word.hasAttributes = true)

namespace Node

variable {stream : Nat} {T : ReferenceTable} {w : Wire} {p : Nat} {v : Value}

theorem canonical_of_attributeSet? {part? : Option Wire} {as : Attributes}
    (h : attributeSet? stream T part? p = some as) :
    as.Canonical ∧ (as ≠ [] ↔ part?.isSome = true) := by
  cases part? with
  | none =>
    cases h
    exact ⟨⟨.nil, nofun⟩, iff_of_false (fun hne ↦ hne rfl) nofun⟩
  | some w =>
    obtain ⟨u, -, h⟩ := Option.bind_eq_some_iff.mp h
    obtain ⟨hcanonical, hne⟩ := Attributes.canonical_of_bind (toOption_eq_some h)
    exact ⟨hcanonical, iff_of_true hne rfl⟩

theorem isSome_attributes? (hw : w.WellFormed) (hT : T.Symbolic)
    (h : w.value? stream T p = some v) {as : Attributes} (has : v.attributes? = some as) :
    w.attributes?.isSome = w.word.hasAttributes := by
  cases evaluates_of_value? hT h with
  | null _ _ => cases has
  | reference _ => cases has
  | char _ _ _ _ => cases has
  | symbol _ => cases has
  | atoms _ => exact hw.2.2.1
  | strings _ => exact hw.2.2.2.1
  | list _ _ => exact hw.2.2.2.1
  | cell _ _ _ _ _ => exact hw.2.1

theorem of_value? (hw : w.WellFormed) (hT : T.Symbolic) (h : w.value? stream T p = some v) :
    Node w.word v := by
  have hset : ∀ as, v.attributes? = some as →
      as.Canonical ∧ (as ≠ [] ↔ w.word.hasAttributes = true) := by
    intro as has
    have heval := attributes_evaluate hT h
    rw [Value.attributes, has, Option.getD_some] at heval
    rw [← isSome_attributes? hw hT h has]
    exact canonical_of_attributeSet? heval
  refine ⟨?_, fun as has ↦ (hset as has).1.sound, fun as has ↦ (hset as has).2⟩
  rintro origin atoms attributes object rfl
  rw [Value.isComplete?, Option.some.injEq, Atoms.isComplete_eq_false_iff]

end Node

/-- If an item can be read, then every node of its value stands for an item in the stream, and is
what the flag word of that item says. -/
theorem read_nodes {e : Setting} {s t : Progress} {v : Value} (hs : s.table.Symbolic)
    (h : read e s = .ok v t) :
    ∃ w : Wire, w.WellFormed ∧ s.cursor.rest = w.bytes ++ t.cursor.rest ∧
      ∀ path x, v.at? path = some x →
        ∃ y, Place.at? e.stream t.table ⟨s.cursor.position, w⟩ path = some y ∧
          (∃ front back, s.cursor.rest = front ++ (y.item.word.bytes ++ back) ∧
            y.offset = s.cursor.position + front.length) ∧
          (∀ origin, x.origin? = some origin → origin = ⟨e.stream, y.offset⟩) ∧
          Node y.item.word x := by
  obtain ⟨w, hw, hm, hv⟩ := (Account.accounted_read e s hs).of_ok h
  have hT : t.table.Symbolic := hs.extends hm.grows
  refine ⟨w, hw, hm.rest, fun path x hx ↦ ?_⟩
  have hroot : Place.value? e.stream t.table ⟨s.cursor.position, w⟩ = some v := hv _ (.refl _)
  obtain ⟨y, hy, hyx⟩ := Place.at?_evaluates hT hroot hx
  have hmem := Place.mem_all_of_at? hy
  refine ⟨y, hy, ?_, fun origin ↦ Place.origin_eq hT hyx, ?_⟩
  · obtain ⟨front, back, hbytes, hoffset⟩ := Place.bytes_of_mem_all hmem
    refine ⟨front, y.item.payload ++ back ++ t.cursor.rest, ?_, hoffset⟩
    rw [hm.rest, hbytes, bytes_eq]
    simp only [List.append_assoc]
  · exact Node.of_value? (Place.wellFormed_of_mem_all hw hmem) hT hyx

/-- An integer vector of two elements, the first of which is missing, with dimensions. -/
def dimmedVector : List UInt8 :=
  [0, 0, 2, 13, 0, 0, 0, 2, 128, 0, 0, 0, 0, 0, 0, 5, 0, 0, 4, 2, 0, 0, 0, 1, 0, 0, 0, 9,
    0, 0, 0, 3, 100, 105, 109, 0, 0, 0, 13, 0, 0, 0, 1, 0, 0, 0, 2, 0, 0, 0, 254]

theorem read_dimmedVector :
    ∃ v t x, read ⟨9, 0⟩ (.start dimmedVector []) = .ok v t ∧ v.at? [.attr "dim"] = some x ∧
      v.isComplete? = some false ∧ x.kind = .integer ∧
      ∃ y z : Place, Node y.item.word v ∧ y.item.word.hasAttributes = true ∧
        Node z.item.word x ∧ z.item.word.hasAttributes = false := by
  have hread : (match read ⟨9, 0⟩ (.start dimmedVector []) with
      | .ok v _ => v.isComplete? == some false && v.attributes?.map List.length == some 1 &&
        ((v.at? [.attr "dim"]).bind Value.attributes?).map List.length == some 0
      | .error _ _ => false) = true := by decide +kernel
  cases h : read ⟨9, 0⟩ (.start dimmedVector []) with
  | error err t =>
    rw [h] at hread
    cases hread
  | ok v t =>
    simp only [h, Bool.and_eq_true, beq_iff_eq] at hread
    obtain ⟨⟨hcomplete, hone⟩, hnone⟩ := hread
    obtain ⟨as, has, hone⟩ := Option.map_eq_some_iff.mp hone
    obtain ⟨bs, hbs, hnil⟩ := Option.map_eq_some_iff.mp hnone
    obtain ⟨x, hx, hbs⟩ := Option.bind_eq_some_iff.mp hbs
    obtain ⟨w, -, -, hnodes⟩ :=
      read_nodes (s := .start dimmedVector []) ReferenceTable.symbolic_empty h
    obtain ⟨y, -, -, -, hy⟩ := hnodes [] v rfl
    obtain ⟨z, -, -, -, hz⟩ := hnodes [.attr "dim"] x hx
    obtain ⟨u, hu, rest⟩ := Value.at?_cons hx
    cases rest
    have hget : Attributes.get? as "dim" = some x := by
      rw [Value.step?_attr, Value.attributes, has, Option.getD_some] at hu
      exact hu
    refine ⟨v, t, x, rfl, hx, hcomplete, (hy.sound as has).dim x hget, y, z, hy, ?_, hz, ?_⟩
    · refine (hy.flagged as has).mp fun he ↦ ?_
      rw [he] at hone
      cases hone
    · rw [← Bool.not_eq_true, ← hz.flagged bs hbs]
      exact fun hne ↦ hne (List.length_eq_zero_iff.mp hnil)

end Rds
