import Rds.Proofs.Encoding.RoundTrip

namespace Rds

namespace FlagWord

def compose (type : TypeCode) (object attributes tag : Bool) : FlagWord :=
  ⟨(type.code.toUInt32 ||| (if object then 0x100 else 0) ||| (if attributes then 0x200 else 0) |||
    (if tag then 0x400 else 0)).toInt32⟩

variable (type : TypeCode) (object attributes tag : Bool)

theorem type?_compose : (compose type object attributes tag).type? = some type := by
  cases type <;> cases object <;> cases attributes <;> cases tag <;> rfl

theorem isObject_compose : (compose type object attributes tag).isObject = object := by
  cases type <;> cases object <;> cases attributes <;> cases tag <;> rfl

theorem hasAttributes_compose :
    (compose type object attributes tag).hasAttributes = attributes := by
  cases type <;> cases object <;> cases attributes <;> cases tag <;> rfl

theorem hasTag_compose : (compose type object attributes tag).hasTag = tag := by
  cases type <;> cases object <;> cases attributes <;> cases tag <;> rfl

end FlagWord

def Logical.toInt32 : Logical → Int32
  | false => 0
  | true => 1
  | na => naInteger

theorem Logical.ofInt32_comp_toInt32 : ofInt32 ∘ toInt32 = id := by
  funext l
  cases l <;> decide

def PairKind.type : PairKind → TypeCode
  | list => .pairlist
  | language => .language
  | closure => .closure
  | promise => .promise
  | dots => .dots

theorem PairKind.pairKind?_type (kind : PairKind) : kind.type.pairKind? = some kind := by
  cases kind <;> rfl

namespace Wire

open FlagWord

def plainNull : Wire := null (compose .nilValue false false false)

def plainChars (c : Chars) : Wire :=
  char (compose .char false false false) (c.text?.map Utf8.encode) none

def plainSymbol (name : Chars) : Wire :=
  symbol (compose .symbol false false false) (plainChars name)

def partOf (as : List (String × Value)) (chain : Wire) : Option Wire :=
  if as.isEmpty then none else some chain

mutual

/-- The item that spells a value out with every symbol in full. -/
def plain : Value → Wire
  | .null => plainNull
  | .symbol name => plainSymbol name
  | .char content => plainChars content
  | .vector _ a as object =>
    let part? := partOf as (plainChain as)
    let word (type : TypeCode) := compose type object (!as.isEmpty) false
    match a with
    | .logical items => atoms (word .logical) (.logical (items.map Logical.toInt32)) part?
    | .integer items => atoms (word .integer) (.integer items) part?
    | .double items => atoms (word .double) (.double items) part?
    | .complex items => atoms (word .complex) (.complex items) part?
    | .raw items => atoms (word .raw) (.raw items) part?
    | .character texts => strings (word .string) (texts.map plainChars) part?
  | .list _ elements as object =>
    list (compose .list object (!as.isEmpty) false) (plainAll elements)
      (partOf as (plainChain as))
  | .pair _ kind tag car cdr as object =>
    cell (compose kind.type object (!as.isEmpty) tag.isSome) (partOf as (plainChain as))
      (tag.map plainSymbol) (plain car) (plain cdr)
termination_by structural v => v

def plainAll : List Value → List Wire
  | [] => []
  | v :: vs => plain v :: plainAll vs
termination_by structural vs => vs

def plainChain : List (String × Value) → Wire
  | [] => plainNull
  | (name, v) :: as =>
    cell (compose .pairlist false false true) none (some (plainSymbol (.text ⟨0, 0⟩ name)))
      (plain v) (plainChain as)
termination_by structural as => as

end

variable (T : ReferenceTable)

theorem encodes_plainNull : plainNull.Encodes T .null [] :=
  ⟨.inr (type?_compose ..), rfl, rfl⟩

theorem encodes_plainChars (c : Chars) : (plainChars c).Encodes T (.char c) [] :=
  ⟨type?_compose .., hasAttributes_compose .., rfl, c, rfl, rfl, rfl⟩

theorem encodes_plainSymbol (name : Chars) :
    (plainSymbol name).Encodes T (.symbol name) [name] :=
  ⟨type?_compose .., hasAttributes_compose .., name, encodes_plainChars T name, rfl, rfl⟩

theorem isSome_partOf (as : List (String × Value)) (chain : Wire) :
    (partOf as chain).isSome = !as.isEmpty := by
  cases as <;> rfl

theorem encodes_partOf {as : Attributes} {chain : Wire}
    (h : ∃ names, chain.Encodes T (Attributes.chain as) names) :
    ∃ names, EncodesAttributes (partOf as chain) T as names := by
  cases as with
  | nil => exact ⟨[], rfl, rfl⟩
  | cons a as =>
    obtain ⟨names, h⟩ := h
    exact ⟨names, nofun, h⟩

theorem encodes_tag (tag : Option Chars) :
    ∃ names, EncodesTag (tag.map plainSymbol) T tag names := by
  cases tag with
  | none => exact ⟨[], rfl, rfl⟩
  | some name => exact ⟨[name], name, rfl, encodes_plainSymbol T name⟩

theorem encodes_plainChars_all (texts : List Chars) :
    EncodesAll (texts.map plainChars) T (texts.map .char) [] := by
  induction texts with
  | nil => exact ⟨rfl, rfl⟩
  | cons c texts ih =>
    refine ⟨_, _, [], [], encodes_plainChars T c, ?_, rfl, rfl⟩
    rw [ReferenceTable.pushAll_nil]
    exact ih

theorem encodes_plain_atoms (data : Data) {as : Attributes} {chain : Wire}
    (h : ∃ names, chain.Encodes T (Attributes.chain as) names) (origin : Origin) (object : Bool) :
    ∃ names, (atoms (compose data.type object (!as.isEmpty) false) data (partOf as chain)).Encodes T
      (.vector origin data.atoms as object) names := by
  obtain ⟨names, h⟩ := encodes_partOf T h
  refine ⟨names, type?_compose .., ?_, origin, as, h, ?_⟩
  · rw [isSome_partOf, hasAttributes_compose]
  · rw [isObject_compose]

mutual

/-- Every value has an encoding, whatever the table holds. -/
theorem encodes_plain (T : ReferenceTable) (v : Value) : ∃ names, (plain v).Encodes T v names := by
  match v with
  | .null => exact ⟨[], encodes_plainNull T⟩
  | .symbol name => exact ⟨[name], encodes_plainSymbol T name⟩
  | .char content => exact ⟨[], encodes_plainChars T content⟩
  | .vector origin a as object =>
    have hchain := fun T ↦ encodes_plainChain T as
    cases a with
    | logical items =>
      have h := encodes_plain_atoms T (.logical (items.map Logical.toInt32)) (hchain T) origin
        object
      rwa [Data.atoms, List.map_map, Logical.ofInt32_comp_toInt32, List.map_id] at h
    | integer items => exact encodes_plain_atoms T (.integer items) (hchain T) _ _
    | double items => exact encodes_plain_atoms T (.double items) (hchain T) _ _
    | complex items => exact encodes_plain_atoms T (.complex items) (hchain T) _ _
    | raw items => exact encodes_plain_atoms T (.raw items) (hchain T) _ _
    | character texts =>
      obtain ⟨names, h⟩ := encodes_partOf (T.pushAll []) (hchain _)
      refine ⟨names, type?_compose .., ?_, origin, texts, as, [], names,
        encodes_plainChars_all T texts, h, ?_, rfl⟩
      · rw [isSome_partOf, hasAttributes_compose]
      · rw [isObject_compose]
  | .list origin elements as object =>
    obtain ⟨names₁, h₁⟩ := encodes_plainAll T elements
    obtain ⟨names₂, h₂⟩ := encodes_partOf (T.pushAll names₁) (encodes_plainChain _ as)
    refine ⟨_, type?_compose .., ?_, origin, elements, as, names₁, names₂, h₁, h₂, ?_, rfl⟩
    · rw [isSome_partOf, hasAttributes_compose]
    · rw [isObject_compose]
  | .pair origin kind tag car cdr as object =>
    obtain ⟨names₁, h₁⟩ := encodes_partOf T (encodes_plainChain _ as)
    obtain ⟨names₂, h₂⟩ := encodes_tag (T.pushAll names₁) tag
    obtain ⟨names₃, h₃⟩ := encodes_plain ((T.pushAll names₁).pushAll names₂) car
    obtain ⟨names₄, h₄⟩ := encodes_plain (((T.pushAll names₁).pushAll names₂).pushAll names₃) cdr
    refine ⟨_, ?_, ?_, origin, kind, tag, car, cdr, as, names₁, names₂, names₃, names₄, ?_, h₁, h₂,
      h₃, h₄, ?_, rfl⟩
    · rw [isSome_partOf, hasAttributes_compose]
    · rw [Option.isSome_map, hasTag_compose]
    · rw [type?_compose, Option.bind_some, kind.pairKind?_type]
    · rw [isObject_compose]
termination_by structural v

theorem encodes_plainAll (T : ReferenceTable) (vs : List Value) :
    ∃ names, EncodesAll (plainAll vs) T vs names := by
  match vs with
  | [] => exact ⟨[], rfl, rfl⟩
  | v :: vs =>
    obtain ⟨names₁, h₁⟩ := encodes_plain T v
    obtain ⟨names₂, h₂⟩ := encodes_plainAll (T.pushAll names₁) vs
    exact ⟨_, v, vs, names₁, names₂, h₁, h₂, rfl, rfl⟩
termination_by structural vs

theorem encodes_plainChain (T : ReferenceTable) (as : List (String × Value)) :
    ∃ names, (plainChain as).Encodes T (Attributes.chain as) names := by
  match as with
  | [] => exact ⟨[], encodes_plainNull T⟩
  | (name, v) :: as =>
    let tag : Chars := .text ⟨0, 0⟩ name
    obtain ⟨names₁, h₁⟩ := encodes_plain ((T.pushAll []).pushAll [tag]) v
    obtain ⟨names₂, h₂⟩ := encodes_plainChain (((T.pushAll []).pushAll [tag]).pushAll names₁) as
    refine ⟨_, ?_, ?_, ⟨0, 0⟩, .list, some tag, v, Attributes.chain as, [], [], [tag], names₁,
      names₂, ?_, ⟨rfl, rfl⟩, ⟨tag, rfl, encodes_plainSymbol _ tag⟩, h₁, h₂, ?_, rfl⟩
    · rw [hasAttributes_compose]
      rfl
    · rw [hasTag_compose]
      rfl
    · rw [type?_compose]
      rfl
    · rw [isObject_compose]
      rfl
termination_by structural as

end

end Wire

namespace Encoding

open Item Descent

/-- Every value that can be stored is read back from some bytes, up to equality. -/
theorem exists_read_eq {v : Value} (hv : v.Storable) (stream : Nat) :
    ∃ bytes maxDepth u t, read ⟨maxDepth, stream⟩ (.start bytes []) = .ok u t ∧ (u == v) = true ∧
      t.cursor = ⟨bytes.length, []⟩ := by
  obtain ⟨names, he⟩ := Wire.encodes_plain .empty v
  generalize Wire.plain v = w at he
  have hy := (reads_item_rest ⟨w.nesting, stream⟩ w.bytes.length).1 0 (Nat.le_refl _)
    (Nat.le_of_eq (Nat.zero_add _)) hv he
  obtain ⟨u, t, -, hr, hu, hc, -, -⟩ := hy (.start w.bytes []) [] rfl (List.append_nil _).symm
  refine ⟨w.bytes, w.nesting, u, t, ?_, Value.same_of_erase hu hv, ?_⟩
  · rw [read_eq_item _ (Nat.le_refl _)]
    exact hr
  · rw [hc]
    exact congrArg (Cursor.mk · []) (Nat.zero_add _)

end Encoding

end Rds
