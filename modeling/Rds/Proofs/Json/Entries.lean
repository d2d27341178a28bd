import Mathlib.Algebra.GroupWithZero.Nat
import Mathlib.Algebra.Order.BigOperators.Group.List
import Rds.Proofs.Attributes
import Rds.Proofs.Graph
import Rds.Proofs.Json

namespace Rds

namespace Value

/-- The number of attributes of all nodes of a graph. -/
def attributeCount (v : Value) : Nat := (v.nodes.map fun u ↦ u.attributes.length).sum

theorem attributeCount_eq (v : Value) :
    v.attributeCount = v.attributes.length + (v.children.map attributeCount).sum := by
  have hchildren (us : List Value) :
      ((us.flatMap nodes).map fun u ↦ u.attributes.length).sum = (us.map attributeCount).sum := by
    induction us with
    | nil => rfl
    | cons u us ih =>
      rw [List.flatMap_cons, List.map_append, List.sum_append, ih]
      rfl
  rw [attributeCount, nodes_eq, List.map_cons, List.sum_cons, hchildren]

def countOfSet (as : Attributes) : Nat := (as.map fun a ↦ 1 + a.2.attributeCount).sum

theorem countOfSet_eq (as : Attributes) :
    countOfSet as = as.length + ((as.map Prod.snd).map attributeCount).sum := by
  induction as with
  | nil => rfl
  | cons a as ih =>
    simp only [countOfSet, List.map_cons, List.sum_cons, List.length_cons] at ih ⊢
    omega

theorem attributeCount_vector (origin : Origin) (atoms : Atoms) (as : Attributes)
    (object : Bool) : (vector origin atoms as object).attributeCount = countOfSet as := by
  rw [attributeCount_eq, countOfSet_eq]
  rfl

theorem attributeCount_list (origin : Origin) (elements : List Value) (as : Attributes)
    (object : Bool) :
    (list origin elements as object).attributeCount =
      (elements.map attributeCount).sum + countOfSet as := by
  rw [attributeCount_eq, countOfSet_eq, children, List.map_append, List.sum_append]
  exact Nat.add_left_comm _ _ _

theorem attributeCount_pair (origin : Origin) (kind : PairKind) (tag : Option Chars)
    (car cdr : Value) (as : Attributes) (object : Bool) :
    (pair origin kind tag car cdr as object).attributeCount =
      car.attributeCount + cdr.attributeCount + countOfSet as := by
  rw [attributeCount_eq, countOfSet_eq, children, List.map_cons, List.map_cons, List.sum_cons,
    List.sum_cons]
  change as.length + _ = _
  omega

end Value

namespace Json

open Value

mutual

/-- The number of attributes that a document shows. They are the entries of the objects in the
fields of that name, and those below them. -/
def entries : Json → Nat
  | array items => entriesOfAll items
  | object fields => entriesOfFields fields
  | _ => 0
termination_by structural j => j

def entriesOfAll : List Json → Nat
  | [] => 0
  | item :: items => entries item + entriesOfAll items
termination_by structural items => items

def entriesOfFields : List (String × Json) → Nat
  | [] => 0
  | (name, j) :: fields =>
    (if name = "attributes" then entriesOfSet j else entries j) + entriesOfFields fields
termination_by structural fields => fields

def entriesOfSet : Json → Nat
  | object fields => entriesOfValues fields
  | _ => 0
termination_by structural j => j

def entriesOfValues : List (String × Json) → Nat
  | [] => 0
  | (_, j) :: fields => 1 + entries j + entriesOfValues fields
termination_by structural fields => fields

end

def entriesOfField (f : String × Json) : Nat :=
  if f.1 = "attributes" then entriesOfSet f.2 else entries f.2

theorem entriesOfAll_eq (items : List Json) : entriesOfAll items = (items.map entries).sum := by
  induction items with
  | nil => rfl
  | cons item items ih => rw [entriesOfAll, ih, List.map_cons, List.sum_cons]

theorem entriesOfFields_eq (fs : List (String × Json)) :
    entriesOfFields fs = (fs.map entriesOfField).sum := by
  induction fs with
  | nil => rfl
  | cons f fs ih => rw [entriesOfFields, ih, List.map_cons, List.sum_cons, entriesOfField]

theorem entriesOfValues_eq (fs : List (String × Json)) :
    entriesOfValues fs = (fs.map fun f ↦ 1 + entries f.2).sum := by
  induction fs with
  | nil => rfl
  | cons f fs ih => rw [entriesOfValues, ih, List.map_cons, List.sum_cons]

theorem entries_ofFields (fs : List (String × Json)) :
    entries (ofFields fs) = (fs.map entriesOfField).sum := by
  rw [ofFields, entries, entriesOfFields_eq]
  exact ((List.mergeSort_perm _ _).map _).sum_eq

theorem entriesOfSet_ofFields (fs : List (String × Json)) :
    entriesOfSet (ofFields fs) = (fs.map fun f ↦ 1 + entries f.2).sum := by
  rw [ofFields, entriesOfSet, entriesOfValues_eq]
  exact ((List.mergeSort_perm _ _).map _).sum_eq

theorem entries_ofChars (c : Chars) : entries (ofChars c) = 0 := by
  cases c <;> rfl

theorem entries_ofDouble [Numerals] (x : Double) : entries (ofDouble x) = 0 := by
  unfold ofDouble ofPresent
  repeat' split
  all_goals rfl

theorem entries_ofAtoms [Numerals] (atoms : Atoms) : entries (ofAtoms atoms) = 0 := by
  have hzero {α : Type} {f : α → Json} (hf : ∀ x, entries (f x) = 0) (xs : List α) :
      entries (array (xs.map f)) = 0 := by
    rw [entries, entriesOfAll_eq, List.map_map]
    refine List.sum_eq_zero fun n hn ↦ ?_
    obtain ⟨x, -, rfl⟩ := List.mem_map.mp hn
    exact hf x
  cases atoms with
  | logical xs => exact hzero (fun x ↦ by cases x <;> rfl) xs
  | integer xs => exact hzero (fun n ↦ by rw [ofInt32]; split <;> rfl) xs
  | double xs => exact hzero entries_ofDouble xs
  | complex xs =>
    refine hzero (fun z ↦ ?_) xs
    rw [ofComplex]
    split
    · rfl
    · rw [entries_ofFields]
      simp [entriesOfField, entries_ofDouble]
  | character xs => exact hzero entries_ofChars xs
  | raw xs => exact hzero (fun _ ↦ rfl) xs

theorem entries_withAttributes (typeName : String) (values : Json) (fs : List (String × Json)) :
    entries (withAttributes typeName values fs) =
      entries values + (fs.map fun f ↦ 1 + entries f.2).sum := by
  rw [withAttributes]
  split
  · next h => rw [List.isEmpty_iff.mp h, List.map_nil, List.sum_nil, Nat.add_zero]
  · rw [entries_ofFields]
    simp [entriesOfField, entriesOfSet_ofFields, entries]

theorem entries_ofCell (tag : Option Chars) (car : Json) (fs : List (String × Json)) :
    entries (ofCell tag car fs) = entries car + (fs.map fun f ↦ 1 + entries f.2).sum := by
  have htag : ((tag.map fun t ↦ ("tag", ofChars t)).toList.map entriesOfField).sum = 0 := by
    cases tag with
    | none => rfl
    | some t => simp [entriesOfField, entries_ofChars]
  rw [ofCell, entries_ofFields, List.map_append, List.sum_append, htag, Nat.zero_add]
  split
  · next h => simp [entriesOfField, List.isEmpty_iff.mp h]
  · simp [entriesOfField, entriesOfSet_ofFields]

section Documents

variable [Numerals]

theorem sum_entries_listed {as : Attributes}
    (h : ∀ a ∈ as, entries (ofValue a.2) = a.2.attributeCount) :
    ((Keyed.mapValues ofValue as.listed).map fun f ↦ 1 + entries f.2).sum = countOfSet as := by
  rw [Keyed.mapValues, List.map_map, countOfSet, (as.listed_perm.map _).sum_eq]
  congr 1
  exact List.map_congr_left fun a ha ↦ congrArg (1 + ·) (h a ha)

def entriesOfChain (v : Value) : Nat :=
  (v.cells.map fun c ↦ entries (cellDoc c)).sum + ((tailField v.tail).map entriesOfField).sum

theorem entriesOfChain_of_cells_nil {v : Value} (h : v.cells = []) :
    entriesOfChain v = entries (ofValue v) := by
  cases v with
  | null => rw [ofValue]; rfl
  | pair => simp [cells_pair] at h
  | _ => simp [entriesOfChain, h, tail, unlink, tailField, isNull, entriesOfField]

theorem entriesOfChain_pair (origin : Origin) (kind : PairKind) (tag : Option Chars)
    (car cdr : Value) (as : Attributes) (object : Bool) :
    entriesOfChain (.pair origin kind tag car cdr as object) =
      entries (cellDoc ⟨origin, kind, tag, car, as, object⟩) + entriesOfChain cdr := by
  rw [entriesOfChain, cells_pair, tail_pair, List.map_cons, List.sum_cons, Nat.add_assoc]
  rfl

theorem entries_ofValue_pair (origin : Origin) (kind : PairKind) (tag : Option Chars)
    (car cdr : Value) (as : Attributes) (object : Bool) :
    entries (ofValue (.pair origin kind tag car cdr as object)) =
      entriesOfChain (.pair origin kind tag car cdr as object) := by
  rw [ofValue_pair, entries_ofFields, entriesOfChain, cells_pair, tail_pair, List.map_append,
    List.sum_append]
  simp [entriesOfField, entries, entriesOfAll_eq, Function.comp_def]

theorem entries_of_cells_nil {v : Value} (hcells : v.cells = [])
    (h : ∀ u ∈ v.children, entries (ofValue u) = u.attributeCount) :
    entries (ofValue v) = v.attributeCount := by
  have hset := sum_entries_listed fun a ha ↦ h a.2 (mem_children_of_attribute ha)
  cases v with
  | null =>
    rw [ofValue]
    rfl
  | symbol name =>
    rw [ofValue, entries_ofFields]
    simp [entriesOfField, entries_ofChars, attributeCount_eq, attributes, attributes?, children]
  | char content =>
    rw [ofValue, entries_ofChars]
    rfl
  | vector origin atoms as object =>
    rw [ofValue_vector, entries_withAttributes, entries_ofAtoms, Nat.zero_add,
      attributeCount_vector]
    exact hset
  | list origin elements as object =>
    have helements : elements.map (entries ∘ ofValue) = elements.map attributeCount :=
      List.map_congr_left fun u hu ↦ h u (List.mem_append_left _ hu)
    rw [ofValue_list, entries_withAttributes, entries, entriesOfAll_eq, List.map_map,
      helements, attributeCount_list]
    exact congrArg _ hset
  | pair => simp [cells_pair] at hcells

/-- The document of a graph shows all its attributes, and so do the cells and the tail of a
chain. -/
theorem entries_ofValue_and_chain (v : Value) :
    entries (ofValue v) = v.attributeCount ∧ entriesOfChain v = v.attributeCount := by
  refine induction_chain (fun v ↦ entries_of_cells_nil)
    (fun v hcells h ↦ (entriesOfChain_of_cells_nil hcells).trans h) ?_ v
  intro origin kind tag car cdr as object hcar hcdr hset
  have hcell : entries (cellDoc ⟨origin, kind, tag, car, as, object⟩) =
      car.attributeCount + countOfSet as := by
    rw [cellDoc, entries_ofCell, hcar, sum_entries_listed hset]
  have hchain : entriesOfChain (pair origin kind tag car cdr as object) =
      (pair origin kind tag car cdr as object).attributeCount := by
    rw [entriesOfChain_pair, hcell, hcdr, attributeCount_pair]
    exact Nat.add_right_comm _ _ _
  exact ⟨(entries_ofValue_pair ..).trans hchain, hchain⟩

theorem entries_ofValue (v : Value) : entries (ofValue v) = v.attributeCount :=
  (entries_ofValue_and_chain v).1

end Documents

end Json

end Rds
