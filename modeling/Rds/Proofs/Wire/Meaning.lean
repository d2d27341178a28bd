import Rds.Proofs.Encoding
import Rds.Proofs.Wire.Parts

namespace Rds

open Item

namespace ReferenceTable

/-- The second table is the first one with further symbols. -/
def Extends (T T' : ReferenceTable) : Prop := ∃ names, T' = T.pushAll names

def Symbolic (T : ReferenceTable) : Prop := ∀ v ∈ T.entries, ∃ name, v = .symbol name

variable {T T' T'' : ReferenceTable} {index : Int32} {v : Value}

theorem Extends.refl (T : ReferenceTable) : T.Extends T := ⟨[], T.pushAll_nil.symm⟩

theorem extends_pushAll (T : ReferenceTable) (names : List Chars) : T.Extends (T.pushAll names) :=
  ⟨names, rfl⟩

theorem Extends.trans (h : T.Extends T') (h' : T'.Extends T'') : T.Extends T'' := by
  obtain ⟨names, rfl⟩ := h
  obtain ⟨names', rfl⟩ := h'
  exact ⟨names ++ names', (T.pushAll_append names names').symm⟩

theorem symbolic_empty : empty.Symbolic := fun v hv ↦ absurd hv (Array.not_mem_empty v)

theorem Symbolic.extends (h : T.Symbolic) (hT : T.Extends T') : T'.Symbolic := by
  obtain ⟨names, rfl⟩ := hT
  intro v hv
  obtain hv | hv := Array.mem_append.mp hv
  · exact h v hv
  · obtain ⟨name, -, rfl⟩ := List.mem_map.mp (List.mem_toArray.mp hv)
    exact ⟨name, rfl⟩

theorem get?_extends (hT : T.Extends T') (h : T.get? index = some v) : T'.get? index = some v := by
  obtain ⟨names, rfl⟩ := hT
  unfold get? at h ⊢
  split at h
  · exact Array.getElem?_append_left (Array.getElem?_eq_some_iff.mp h).1 ▸ h
  · cases h

theorem Symbolic.of_get? (hs : T.Symbolic) (h : T.get? index = some v) :
    ∃ name, v = .symbol name := by
  unfold get? at h
  split at h
  · exact hs v (Array.mem_of_getElem? h)
  · cases h

end ReferenceTable

namespace Value

def chars? : Value → Option Chars
  | char content => some content
  | _ => none

theorem mapM_chars? (contents : List Chars) : (contents.map char).mapM chars? = some contents := by
  induction contents with
  | nil => rfl
  | cons content contents ih =>
    rw [List.map_cons, List.mapM_cons, ih]
    rfl

end Value

namespace Wire

def charsOf (origin : Origin) : Option (List UInt8) → Chars
  | none => .na
  | some bytes => .text origin (String.ofList (Utf8.repair bytes))

variable (stream : Nat)

def Place.symbol? (x : Place) : Option Chars :=
  match x.item with
  | symbol _ (char _ content? _) => some (charsOf ⟨stream, x.offset + 4⟩ content?)
  | _ => none

/-- The names that items enter into the table. -/
def names (xs : List Place) : List Chars := xs.filterMap (Place.symbol? stream)

theorem names_append (xs ys : List Place) :
    names stream (xs ++ ys) = names stream xs ++ names stream ys :=
  List.filterMap_append

def attributes? : Wire → Option Wire
  | atoms _ _ attributes? => attributes?
  | strings _ _ attributes? => attributes?
  | list _ _ attributes? => attributes?
  | cell _ attributes? _ _ _ => attributes?
  | _ => none

def elementsAt (elements : List Wire) (p : Nat) : Nat :=
  p + (4 + (lengthBytes elements.length).length)

def attributesAt : Wire → Nat → Nat
  | atoms _ data _, p => p + (4 + data.bytes.length)
  | strings _ elements _, p => elementsAt elements p + (bytesOfAll elements).length
  | list _ elements _, p => elementsAt elements p + (bytesOfAll elements).length
  | _, p => p + 4

def tagAt (attributes? : Option Wire) (p : Nat) : Nat := p + 4 + (bytesOfPart attributes?).length

def carAt (attributes? tag? : Option Wire) (p : Nat) : Nat :=
  tagAt attributes? p + (bytesOfPart tag?).length

def cdrAt (attributes? tag? : Option Wire) (car : Wire) (p : Nat) : Nat :=
  carAt attributes? tag? p + car.bytes.length

variable (T : ReferenceTable)

mutual

/-- The value of the item at an offset if references are looked up in `T`. -/
def value? : Wire → Nat → Option Value
  | null _, _ => some .null
  | reference word index?, _ => T.get? (index?.getD word.packedIndex)
  | char _ content? _, p => some (.char (charsOf ⟨stream, p⟩ content?))
  | symbol word name, p => (Place.symbol? stream ⟨p, symbol word name⟩).map .symbol
  | atoms word data part?, p => do
    let attributes ← attributeSet? part? (attributesAt (atoms word data part?) p)
    return .vector ⟨stream, p⟩ data.atoms attributes word.isObject
  | strings word elements part?, p => do
    let contents ← (← values? elements (elementsAt elements p)).mapM Value.chars?
    let attributes ← attributeSet? part? (attributesAt (strings word elements part?) p)
    return .vector ⟨stream, p⟩ (.character contents) attributes word.isObject
  | list word elements part?, p => do
    let values ← values? elements (elementsAt elements p)
    let attributes ← attributeSet? part? (attributesAt (list word elements part?) p)
    return .list ⟨stream, p⟩ values attributes word.isObject
  | cell word part? tag? car cdr, p => do
    let kind ← word.type?.bind TypeCode.pairKind?
    let attributes ← attributeSet? part? (attributesAt (cell word part? tag? car cdr) p)
    let tag ← tagName? tag? (tagAt part? p)
    let carValue ← car.value? (carAt part? tag? p)
    let cdrValue ← cdr.value? (cdrAt part? tag? car p)
    return .pair ⟨stream, p⟩ kind tag carValue cdrValue attributes word.isObject
termination_by structural w => w

def attributeSet? : Option Wire → Nat → Option Attributes
  | none, _ => some []
  | some w, p => do (Attributes.bind (← w.value? p)).toOption
termination_by structural part? => part?

def tagName? : Option Wire → Nat → Option (Option Chars)
  | none, _ => some none
  | some w, p => do (tagOf (← w.value? p)).toOption
termination_by structural part? => part?

def values? : List Wire → Nat → Option (List Value)
  | [], _ => some []
  | w :: ws, p => do
    let v ← w.value? p
    let vs ← values? ws (p + w.bytes.length)
    return v :: vs
termination_by structural ws => ws

end

/-- How the value of an item comes from those of the items inside. References stand for symbols. -/
inductive Evaluates : Wire → Nat → Value → Prop
  | null (word : FlagWord) (p : Nat) : Evaluates (.null word) p .null
  | reference {word : FlagWord} {index? : Option Int32} {p : Nat} {name : Chars}
      (hname : T.get? (index?.getD word.packedIndex) = some (.symbol name)) :
      Evaluates (.reference word index?) p (.symbol name)
  | char (word : FlagWord) (content? : Option (List UInt8)) (part? : Option Wire) (p : Nat) :
      Evaluates (.char word content? part?) p (.char (charsOf ⟨stream, p⟩ content?))
  | symbol {word : FlagWord} {w : Wire} {p : Nat} {name : Chars}
      (hname : Place.symbol? stream ⟨p, .symbol word w⟩ = some name) :
      Evaluates (.symbol word w) p (.symbol name)
  | atoms {word : FlagWord} {data : Data} {part? : Option Wire} {p : Nat} {as : Attributes}
      (has : attributeSet? stream T part? (attributesAt (.atoms word data part?) p) = some as) :
      Evaluates (.atoms word data part?) p (.vector ⟨stream, p⟩ data.atoms as word.isObject)
  | strings {word : FlagWord} {elements : List Wire} {part? : Option Wire} {p : Nat}
      {contents : List Chars} {as : Attributes}
      (has : attributeSet? stream T part?
        (attributesAt (.strings word elements part?) p) = some as) :
      Evaluates (.strings word elements part?) p
        (.vector ⟨stream, p⟩ (.character contents) as word.isObject)
  | list {word : FlagWord} {elements : List Wire} {part? : Option Wire} {p : Nat}
      {vs : List Value} {as : Attributes}
      (hvs : values? stream T elements (elementsAt elements p) = some vs)
      (has : attributeSet? stream T part? (attributesAt (.list word elements part?) p) = some as) :
      Evaluates (.list word elements part?) p (.list ⟨stream, p⟩ vs as word.isObject)
  | cell {word : FlagWord} {part? tag? : Option Wire} {car cdr : Wire} {p : Nat}
      {kind : PairKind} {as : Attributes} {tag : Option Chars} {a d : Value}
      (hkind : word.type?.bind TypeCode.pairKind? = some kind)
      (has : attributeSet? stream T part?
        (attributesAt (.cell word part? tag? car cdr) p) = some as)
      (htag : tagName? stream T tag? (tagAt part? p) = some tag)
      (ha : car.value? stream T (carAt part? tag? p) = some a)
      (hd : cdr.value? stream T (cdrAt part? tag? car p) = some d) :
      Evaluates (.cell word part? tag? car cdr) p
        (.pair ⟨stream, p⟩ kind tag a d as word.isObject)

variable {stream T}

theorem evaluates_of_value? (hT : T.Symbolic) {w : Wire} {p : Nat} {v : Value}
    (h : w.value? stream T p = some v) : Evaluates stream T w p v := by
  cases w with
  | null word =>
    cases h
    exact .null word p
  | reference word index? =>
    obtain ⟨name, rfl⟩ := hT.of_get? h
    exact .reference h
  | char word content? part? =>
    cases h
    exact .char word content? part? p
  | symbol word w =>
    obtain ⟨name, hname, rfl⟩ := Option.map_eq_some_iff.mp h
    exact .symbol hname
  | atoms word data part? =>
    obtain ⟨as, has, h⟩ := Option.bind_eq_some_iff.mp h
    cases h
    exact .atoms has
  | strings word elements part? =>
    obtain ⟨vs, -, h⟩ := Option.bind_eq_some_iff.mp h
    obtain ⟨contents, -, h⟩ := Option.bind_eq_some_iff.mp h
    obtain ⟨as, has, h⟩ := Option.bind_eq_some_iff.mp h
    cases h
    exact .strings has
  | list word elements part? =>
    obtain ⟨vs, hvs, h⟩ := Option.bind_eq_some_iff.mp h
    obtain ⟨as, has, h⟩ := Option.bind_eq_some_iff.mp h
    cases h
    exact .list hvs has
  | cell word part? tag? car cdr =>
    obtain ⟨kind, hkind, h⟩ := Option.bind_eq_some_iff.mp h
    obtain ⟨as, has, h⟩ := Option.bind_eq_some_iff.mp h
    obtain ⟨tag, htag, h⟩ := Option.bind_eq_some_iff.mp h
    obtain ⟨a, ha, h⟩ := Option.bind_eq_some_iff.mp h
    obtain ⟨d, hd, h⟩ := Option.bind_eq_some_iff.mp h
    cases h
    exact .cell hkind has htag ha hd

theorem eq_char_of_value? (hT : T.Symbolic) {w : Wire} {p : Nat} {content : Chars}
    (h : w.value? stream T p = some (.char content)) :
    ∃ word content? part?, w = .char word content? part? ∧
      content = charsOf ⟨stream, p⟩ content? := by
  cases evaluates_of_value? hT h with
  | char word content? part? _ => exact ⟨word, content?, part?, rfl, rfl⟩

theorem symbol?_of_form {w : Wire} (h : w.form ≠ .symbol) (p : Nat) :
    Place.symbol? stream ⟨p, w⟩ = none := by
  cases w with
  | symbol _ _ => exact absurd rfl h
  | _ => rfl

end Wire

end Rds
