import Rds.Proofs.Descent
import Rds.Proofs.Storable
import Rds.Proofs.Wire

namespace Rds

open Item

namespace ReferenceTable

def pushAll (T : ReferenceTable) (names : List Chars) : ReferenceTable :=
  ⟨T.entries ++ (names.map Value.symbol).toArray⟩

def erase (T : ReferenceTable) : List Value := T.entries.toList.map Value.erase

theorem pushAll_nil (T : ReferenceTable) : T.pushAll [] = T :=
  congrArg mk Array.append_empty

theorem pushAll_append (T : ReferenceTable) (names names' : List Chars) :
    T.pushAll (names ++ names') = (T.pushAll names).pushAll names' := by
  simp only [pushAll, List.map_append, ← List.append_toArray, Array.append_assoc]

theorem pushAll_singleton (T : ReferenceTable) (name : Chars) :
    T.pushAll [name] = T.push (.symbol name) :=
  congrArg mk Array.append_singleton

theorem erase_pushAll (T : ReferenceTable) (names : List Chars) :
    (T.pushAll names).erase = T.erase ++ (names.map Chars.erase).map Value.symbol := by
  simp only [erase, pushAll, Array.toList_append, List.map_append, List.map_map]
  rfl

theorem get?_of_erase {T T' : ReferenceTable} (h : T.erase = T'.erase) {index : Int32} {v : Value}
    (hv : T'.get? index = some v) : ∃ u, T.get? index = some u ∧ u.erase = v.erase := by
  unfold get? at hv ⊢
  split at hv
  · next n _ =>
    have hn := congrArg (·[n]?) h
    simp only [erase, List.getElem?_map, Array.getElem?_toList, hv] at hn
    cases hu : T.entries[n]? with
    | none =>
      rw [hu] at hn
      cases hn
    | some u =>
      rw [hu] at hn
      exact ⟨u, rfl, Option.some.inj hn⟩
  · cases hv

end ReferenceTable

namespace Wire

mutual

/-- The item spells the value out for a reader with the table `T`, and enters the names into it.
References stand for symbols of equal names. No value is without such an item: see
`encodes_plain`. -/
def Encodes : Wire → ReferenceTable → Value → List Chars → Prop
  | null word, _, v, names =>
    (word.type? = some .nil ∨ word.type? = some .nilValue) ∧ v = .null ∧ names = []
  | reference word index?, T, v, names =>
    word.type? = some .reference ∧ (index?.isSome ↔ word.packedIndex = 0) ∧
      ∃ name entry, T.get? (index?.getD word.packedIndex) = some (.symbol entry) ∧
        (entry == name) = true ∧ v = .symbol name ∧ names = []
  | char word content? attributes?, _, v, names =>
    word.type? = some .char ∧ word.hasAttributes = false ∧ attributes? = none ∧
      ∃ content, content? = content.text?.map Utf8.encode ∧ v = .char content ∧ names = []
  | symbol word name, T, v, names =>
    word.type? = some .symbol ∧ word.hasAttributes = false ∧
      ∃ text, name.Encodes T (.char text) [] ∧ v = .symbol text ∧ names = [text]
  | atoms word data attributes?, T, v, names =>
    word.type? = some data.type ∧ attributes?.isSome = word.hasAttributes ∧
      ∃ origin attributes, EncodesAttributes attributes? T attributes names ∧
        v = .vector origin data.atoms attributes word.isObject
  | strings word elements attributes?, T, v, names =>
    word.type? = some .string ∧ attributes?.isSome = word.hasAttributes ∧
      ∃ origin texts attributes names₁ names₂,
        EncodesAll elements T (texts.map .char) names₁ ∧
        EncodesAttributes attributes? (T.pushAll names₁) attributes names₂ ∧
        v = .vector origin (.character texts) attributes word.isObject ∧ names = names₁ ++ names₂
  | list word elements attributes?, T, v, names =>
    word.type? = some .list ∧ attributes?.isSome = word.hasAttributes ∧
      ∃ origin values attributes names₁ names₂,
        EncodesAll elements T values names₁ ∧
        EncodesAttributes attributes? (T.pushAll names₁) attributes names₂ ∧
        v = .list origin values attributes word.isObject ∧ names = names₁ ++ names₂
  | cell word attributes? tag? car cdr, T, v, names =>
    attributes?.isSome = word.hasAttributes ∧ tag?.isSome = word.hasTag ∧
      ∃ origin kind tag carValue cdrValue attributes names₁ names₂ names₃ names₄,
        word.type?.bind TypeCode.pairKind? = some kind ∧
        EncodesAttributes attributes? T attributes names₁ ∧
        EncodesTag tag? (T.pushAll names₁) tag names₂ ∧
        car.Encodes ((T.pushAll names₁).pushAll names₂) carValue names₃ ∧
        cdr.Encodes (((T.pushAll names₁).pushAll names₂).pushAll names₃) cdrValue names₄ ∧
        v = .pair origin kind tag carValue cdrValue attributes word.isObject ∧
        names = names₁ ++ (names₂ ++ (names₃ ++ names₄))
termination_by structural w => w

def EncodesAttributes : Option Wire → ReferenceTable → Attributes → List Chars → Prop
  | none, _, as, names => as = [] ∧ names = []
  | some w, T, as, names => as ≠ [] ∧ w.Encodes T (Attributes.chain as) names
termination_by structural part? => part?

def EncodesTag : Option Wire → ReferenceTable → Option Chars → List Chars → Prop
  | none, _, tag, names => tag = none ∧ names = []
  | some w, T, tag, names => ∃ name, tag = some name ∧ w.Encodes T (.symbol name) names
termination_by structural part? => part?

def EncodesAll : List Wire → ReferenceTable → List Value → List Chars → Prop
  | [], _, vs, names => vs = [] ∧ names = []
  | w :: ws, T, vs, names =>
    ∃ v rest names₁ names₂, w.Encodes T v names₁ ∧ EncodesAll ws (T.pushAll names₁) rest names₂ ∧
      vs = v :: rest ∧ names = names₁ ++ names₂
termination_by structural ws => ws

end

theorem Encodes.pairKind {flags : FlagWord} {attributes? tag? : Option Wire} {car cdr : Wire}
    {T : ReferenceTable} {v : Value} {names : List Chars}
    (h : (cell flags attributes? tag? car cdr).Encodes T v names) :
    ∃ kind, flags.type?.bind TypeCode.pairKind? = some kind := by
  obtain ⟨-, -, origin, kind, tag, carValue, cdrValue, attributes, names₁, names₂, names₃, names₄,
    hk, -⟩ := h
  exact ⟨kind, hk⟩

section Code

variable {w : Wire} {T : ReferenceTable} {v : Value} {names : List Chars}

theorem Encodes.type (h : w.Encodes T v names) : ∃ type, w.word.type? = some type := by
  cases w with
  | null word =>
    obtain ⟨ht | ht, -⟩ := h
    · exact ⟨_, ht⟩
    · exact ⟨_, ht⟩
  | cell word attributes? tag? car cdr =>
    obtain ⟨kind, hk⟩ := h.pairKind
    obtain ⟨type, ht, -⟩ := Option.bind_eq_some_iff.mp hk
    exact ⟨type, ht⟩
  | reference _ _ | char _ _ _ | symbol _ _ | atoms _ _ _ | strings _ _ _ | list _ _ _ =>
    exact ⟨_, h.1⟩

theorem Encodes.isCell_eq (h : w.Encodes T v names) :
    w.isCell = (w.word.type?.bind TypeCode.pairKind?).isSome := by
  cases w with
  | null word =>
    obtain ⟨ht | ht, -⟩ := h
    · rw [Wire.word, ht]
      rfl
    · rw [Wire.word, ht]
      rfl
  | cell word attributes? tag? car cdr =>
    obtain ⟨kind, hk⟩ := h.pairKind
    exact (congrArg Option.isSome hk).symm
  | atoms word data attributes? =>
    obtain ⟨ht, -⟩ := h
    rw [Wire.word, ht]
    cases data <;> rfl
  | reference _ _ | char _ _ _ | symbol _ _ | strings _ _ _ | list _ _ _ =>
    obtain ⟨ht, -⟩ := h
    rw [Wire.word, ht]
    rfl

end Code

theorem EncodesAll.length {ws : List Wire} {T : ReferenceTable} {vs : List Value}
    {names : List Chars} (h : EncodesAll ws T vs names) : ws.length = vs.length := by
  induction ws generalizing T vs names with
  | nil =>
    obtain ⟨rfl, -⟩ := h
    rfl
  | cons w ws ih =>
    obtain ⟨v, rest, names₁, names₂, -, h, rfl, -⟩ := h
    exact congrArg (· + 1) (ih h)

end Wire

end Rds
