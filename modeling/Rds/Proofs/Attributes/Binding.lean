import Mathlib.Data.Finset.Card
import Rds.Proofs.Path
import Rds.Value.Descent

namespace Rds

namespace Attributes

/-- The names with a meaning of their own, what each of them stands for, and the kinds of values
that can be that. -/
def requirements : List (String × Shape × List Kind) :=
  [("names", .character, [.character]), ("dim", .integer, [.integer]),
    ("dimnames", .list, [.list, .null]),
    ("row.names", .integerOrCharacter, [.integer, .character]),
    ("class", .character, [.character])]

def misfit? (name : String) (kind : Kind) : Option AttributeFault :=
  match requirements.lookup name with
  | none => none
  | some (shape, kinds) => if kind ∈ kinds then none else some (.shape name shape kind)

end Attributes

namespace Cell

def name? (c : Cell) : Option String := c.tag.bind Chars.text?

def fault? (c : Cell) : Option AttributeFault :=
  match c.name? with
  | none => some .untagged
  | some name => Attributes.misfit? name c.car.kind

end Cell

namespace Value

def entries (v : Value) : List (String × Value) :=
  v.cells.filterMap fun c ↦ c.name?.map fun name ↦ (name, c.car)

def names (v : Value) : List String := v.cells.filterMap Cell.name?

/-- The car of the last cell of a chain with the tag. -/
def lastTagged? (name : String) (v : Value) : Option Value :=
  (v.cells.reverse.find? fun c ↦ c.name? = some name).map Cell.car

/-- Why a chain spells no attribute set out: its first cell that is no attribute, or else what
ends it. -/
def chainFault? (v : Value) : Option AttributeFault :=
  (v.cells.findSome? Cell.fault?).or
    (if v.tail.isNull then none else some (.terminator v.tail.kind))

def attributesFault? (v : Value) : Option AttributeFault :=
  if v.cells = [] then some (.notPairlist v.kind) else v.chainFault?

theorem map_fst_entries (v : Value) : v.entries.map Prod.fst = v.names := by
  rw [entries, names, List.map_filterMap]
  congr 1
  funext c
  cases c.name? <;> rfl

theorem names_pair {origin : Origin} {kind : PairKind} {tag : Option Chars} {car cdr : Value}
    {attributes : Attributes} {object : Bool} :
    (pair origin kind tag car cdr attributes object).names
      = (tag.bind Chars.text?).toList ++ cdr.names := by
  rw [names, cells_pair, List.filterMap_cons, Cell.name?]
  cases tag.bind Chars.text? <;> rfl

theorem tagged?_eq (name : String) (v : Value) : v.tagged? name = v.lastTagged? name := by
  match v with
  | pair origin kind tag car cdr attributes object =>
    rw [tagged?, tagged?_eq name cdr, lastTagged?, lastTagged?, cells_pair, List.reverse_cons,
      List.find?_append, Option.map_or]
    congr 1
    rw [List.find?_cons, Cell.name?]
    by_cases h : tag.bind Chars.text? = some name
    · rw [if_pos h, decide_eq_true h]
      rfl
    · rw [if_neg h, decide_eq_false h]
      rfl
  | null => rfl
  | symbol _ => rfl
  | char _ => rfl
  | vector .. => rfl
  | list .. => rfl
termination_by structural v

theorem isSome_tagged? (name : String) (v : Value) :
    (v.tagged? name).isSome = true ↔ name ∈ v.names := by
  match v with
  | pair origin kind tag car cdr attributes object =>
    rw [tagged?, names_pair, Option.isSome_or, Bool.or_eq_true, isSome_tagged? name cdr,
      List.mem_append, Option.mem_toList, or_comm]
    refine or_congr_left ?_
    split
    · next h => exact iff_of_true rfl h
    · next h => exact iff_of_false Bool.false_ne_true h
  | null => exact iff_of_false Bool.false_ne_true List.not_mem_nil
  | symbol _ => exact iff_of_false Bool.false_ne_true List.not_mem_nil
  | char _ => exact iff_of_false Bool.false_ne_true List.not_mem_nil
  | vector .. => exact iff_of_false Bool.false_ne_true List.not_mem_nil
  | list .. => exact iff_of_false Bool.false_ne_true List.not_mem_nil
termination_by structural v

end Value

namespace Attributes

open Keyed Value

theorem lookup_requirements (name : String) :
    slotShape? name = none ∧ requirements.lookup name = none ∨
      ∃ shape kinds, slotShape? name = some shape ∧
        requirements.lookup name = some (shape, kinds) ∧
        ∀ kind, shape.admits kind = true ↔ kind ∈ kinds := by
  by_cases h : name ∈ slots
  · right
    simp only [slots, List.mem_cons, List.not_mem_nil, or_false] at h
    obtain rfl | rfl | rfl | rfl | rfl := h
    all_goals
      refine ⟨_, _, rfl, rfl, fun kind ↦ ?_⟩
      cases kind <;> simp [Shape.admits]
  · left
    simp only [slots, List.mem_cons, List.not_mem_nil, or_false, not_or] at h
    obtain ⟨h₀, h₁, h₂, h₃, h₄⟩ := h
    constructor
    · unfold slotShape?
      split <;> first | rfl | contradiction
    · simp only [requirements, lookup_cons_eq, if_neg h₀, if_neg h₁, if_neg h₂, if_neg h₃,
        if_neg h₄, List.lookup_nil]

theorem misfit?_eq (name : String) (kind : Kind) :
    misfit? name kind =
      match slotShape? name with
      | none => none
      | some shape => if shape.admits kind then none else some (.shape name shape kind) := by
  obtain ⟨hshape, hlookup⟩ | ⟨shape, kinds, hshape, hlookup, h⟩ := lookup_requirements name
  · rw [misfit?, hshape, hlookup]
  · rw [misfit?, hshape, hlookup]
    exact if_congr (h kind).symm rfl rfl

theorem insert_eq (as : Attributes) (name : String) (v : Value) :
    as.insert name v =
      match misfit? name v.kind with
      | some fault => .error fault
      | none => .ok (put name v as) := by
  rw [insert, misfit?_eq]
  cases slotShape? name with
  | none => rfl
  | some shape =>
    dsimp only
    split <;> rfl

def putAll (as : Attributes) (entries : List (String × Value)) : Attributes :=
  entries.foldl (fun as e ↦ put e.1 e.2 as) as

theorem collect_eq (as : Attributes) (v : Value) :
    collect as v =
      match v.chainFault? with
      | some fault => .error fault
      | none => .ok (putAll as v.entries) := by
  match v with
  | .pair origin kind tag car cdr attributes object =>
    rw [collect, chainFault?, entries, cells_pair, tail_pair, List.findSome?_cons,
      List.filterMap_cons, Cell.fault?, Cell.name?]
    cases tag.bind Chars.text? with
    | none => rfl
    | some name =>
      dsimp only
      rw [insert_eq]
      cases misfit? name car.kind with
      | some fault => rfl
      | none => exact collect_eq (put name car as) cdr
  | .null => rfl
  | .symbol _ => rfl
  | .char _ => rfl
  | .vector .. => rfl
  | .list .. => rfl
termination_by structural v

theorem bind_eq (v : Value) :
    bind v =
      match v.attributesFault? with
      | some fault => .error fault
      | none => .ok (putAll [] v.entries) := by
  cases v with
  | pair origin kind tag car cdr attributes object =>
    rw [attributesFault?, if_neg (cells_pair .. ▸ List.cons_ne_nil _ _)]
    exact collect_eq [] _
  | null | symbol _ | char _ | vector _ _ _ _ | list _ _ _ _ => rfl

theorem names_others_cons (name : String) (v : Value) (as : Attributes) :
    (others ((name, v) :: as)).map Prod.fst =
      if isSlot name then as.others.map Prod.fst else name :: as.others.map Prod.fst := by
  rw [others, List.filter_cons]
  cases isSlot name <;> rfl

theorem isSlot_of_rank_lt {m n : String} (h : rank m < rank n) : isSlot m = true := by
  refine List.contains_iff_mem.mpr (List.idxOf_lt_length_iff.mp (Nat.lt_of_lt_of_le h ?_))
  exact List.idxOf_le_length

/-- A new name that is no slot comes last, and all others keep their places. -/
theorem names_others_put (name : String) (v : Value) (as : Attributes) :
    (put name v as).others.map Prod.fst =
      if isSlot name ∨ name ∈ as.others.map Prod.fst then as.others.map Prod.fst
      else as.others.map Prod.fst ++ [name] := by
  induction as with
  | nil =>
    rw [put, names_others_cons]
    cases isSlot name <;> rfl
  | cons a as ih =>
    obtain ⟨k, u⟩ := a
    rw [put]
    split
    · next hk =>
      obtain rfl := hk
      rw [names_others_cons, names_others_cons]
      cases h : isSlot k
      · exact (if_pos (.inr List.mem_cons_self)).symm
      · exact (if_pos (.inl rfl)).symm
    · next hk =>
      split
      · next hr =>
        have hslot := isSlot_of_rank_lt hr
        rw [names_others_cons, if_pos hslot, if_pos (.inl hslot)]
      · rw [names_others_cons, names_others_cons, ih]
        have hne : name ≠ k := fun he ↦ hk he.symm
        cases isSlot k
        · simp only [Bool.false_eq_true, if_false, List.mem_cons, hne, false_or]
          split <;> rfl
        · rfl

theorem eraseDups_concat (names : List String) (name : String) :
    (names ++ [name]).eraseDups =
      if name ∈ names then names.eraseDups else names.eraseDups ++ [name] := by
  rw [List.eraseDups_append, List.removeAll, List.filter_singleton]
  by_cases h : name ∈ names
  · rw [if_pos h, List.elem_eq_true_of_mem h]
    exact List.append_nil _
  · rw [if_neg h, (Bool.not_eq_true _).mp (mt List.mem_of_elem_eq_true h)]
    rfl

theorem names_others_putAll (entries : List (String × Value)) :
    (putAll [] entries).others.map Prod.fst =
      ((entries.map Prod.fst).filter fun name ↦ !isSlot name).eraseDups := by
  induction entries using List.reverseRecOn with
  | nil => rfl
  | append_singleton entries e ih =>
    obtain ⟨name, v⟩ := e
    have hput : putAll [] (entries ++ [(name, v)]) = put name v (putAll [] entries) :=
      List.foldl_append
    rw [hput, names_others_put, ih, List.map_append, List.filter_append]
    by_cases h : isSlot name
    · rw [if_pos (.inl h), List.map_singleton, List.filter_singleton, h]
      exact congrArg List.eraseDups (List.append_nil _).symm
    · rw [Bool.not_eq_true] at h
      rw [List.map_singleton, List.filter_singleton, h, Bool.not_false, cond_true,
        eraseDups_concat]
      simp only [Bool.false_eq_true, false_or, List.mem_eraseDups]

theorem mem_names_of_bind {v : Value} {as : Attributes} (h : bind v = .ok as) (name : String) :
    name ∈ as.map Prod.fst ↔ name ∈ v.names := by
  rw [← isSome_tagged?, ← lookup_bind h]
  constructor
  · intro hmem
    obtain ⟨a, ha, rfl⟩ := List.mem_map.mp hmem
    rw [lookup_of_mem (nodup_names (canonical_of_bind h).1.ordered) ha]
    rfl
  · intro hsome
    obtain ⟨u, hu⟩ := Option.isSome_iff_exists.mp hsome
    exact List.mem_map_of_mem (mem_of_lookup hu)

theorem length_of_bind {v : Value} {as : Attributes} (h : bind v = .ok as) :
    as.length = v.names.toFinset.card := by
  have hnames : v.names.toFinset = (as.map Prod.fst).toFinset := by
    ext name
    rw [List.mem_toFinset, List.mem_toFinset, mem_names_of_bind h]
  rw [hnames, List.toFinset_card_of_nodup (nodup_names (canonical_of_bind h).1.ordered),
    List.length_map]

/-- The value is no attribute set for the first reason there is, or its last cell of a name counts
and the first cell of the name gives it its place. -/
theorem bind_last_wins (v : Value) :
    match v.attributesFault? with
    | some fault => bind v = .error fault
    | none => ∃ as, bind v = .ok as ∧ (∀ name, as.get? name = v.lastTagged? name) ∧
        as.length = v.names.toFinset.card ∧
        as.others.map (fun a ↦ (a.1, some a.2)) =
          (v.names.filter (· ∉ slots)).eraseDups.map fun name ↦ (name, v.lastTagged? name) := by
  have hbind := bind_eq v
  cases hfault : v.attributesFault? with
  | some fault =>
    rw [hfault] at hbind
    exact hbind
  | none =>
    rw [hfault] at hbind
    have hget (name : String) : (putAll [] v.entries).get? name = v.lastTagged? name :=
      (lookup_bind hbind name).trans (tagged?_eq name v)
    refine ⟨_, hbind, hget, length_of_bind hbind, ?_⟩
    have hfilter : v.names.filter (· ∉ slots) = v.names.filter fun name ↦ !isSlot name := by
      refine List.filter_congr fun name _ ↦ ?_
      rw [decide_not, isSlot, List.contains_eq_mem]
    rw [hfilter, ← map_fst_entries, ← names_others_putAll, List.map_map]
    refine List.map_congr_left fun a ha ↦ ?_
    have hlookup := lookup_of_mem (nodup_names (canonical_of_bind hbind).1.ordered)
      (List.mem_of_mem_filter ha)
    exact congrArg (a.1, ·) (hlookup.symm.trans (hget a.1))

end Attributes

end Rds
