import Rds.Proofs.Words

namespace Rds

open Item

namespace FlagWord

def bytes (w : FlagWord) : List UInt8 := int32Bytes w.raw

theorem length_bytes (w : FlagWord) : w.bytes.length = 4 := length_bigEndianBytes 4 _

def type? (w : FlagWord) : Option TypeCode := TypeCode.ofCode? w.typeByte

end FlagWord

inductive Wire.Data
  | logical (words : List Int32)
  | integer (items : List Int32)
  | double (items : List Double)
  | complex (items : List Complex)
  | raw (items : List UInt8)

/-- An item in a stream, with all its words. -/
inductive Wire
  | null (word : FlagWord)
  | reference (word : FlagWord) (index? : Option Int32)
  | char (word : FlagWord) (content? : Option (List UInt8)) (attributes? : Option Wire)
  | symbol (word : FlagWord) (name : Wire)
  | atoms (word : FlagWord) (data : Wire.Data) (attributes? : Option Wire)
  | strings (word : FlagWord) (elements : List Wire) (attributes? : Option Wire)
  | list (word : FlagWord) (elements : List Wire) (attributes? : Option Wire)
  | cell (word : FlagWord) (attributes? tag? : Option Wire) (car cdr : Wire)

namespace Wire

namespace Data

def type : Data → TypeCode
  | logical _ => .logical
  | integer _ => .integer
  | double _ => .double
  | complex _ => .complex
  | raw _ => .raw

def length : Data → Nat
  | logical words => words.length
  | integer items => items.length
  | double items => items.length
  | complex items => items.length
  | raw items => items.length

def bytes : Data → List UInt8
  | logical words => countedBytes int32Bytes words
  | integer items => countedBytes int32Bytes items
  | double items => countedBytes doubleBytes items
  | complex items => countedBytes complexBytes items
  | raw items => lengthBytes items.length ++ items

def atoms : Data → Atoms
  | logical words => .logical (words.map Logical.ofInt32)
  | integer items => .integer items
  | double items => .double items
  | complex items => .complex items
  | raw items => .raw items

theorem length_atoms (data : Data) : data.atoms.length = data.length := by
  cases data with
  | logical words => exact List.length_map _
  | integer _ | double _ | complex _ | raw _ => rfl

variable {type : TypeCode} {r : Cursor.Reader Atoms}

theorem spelled (h : atomsReader? type = some r) {c d : Cursor} {atoms : Atoms}
    (hc : r c = .ok atoms d) :
    ∃ data : Data, data.type = type ∧ data.length < 2 ^ 31 ∧ c.rest = data.bytes ++ d.rest := by
  unfold atomsReader? at h
  split at h <;> cases h <;> obtain ⟨items, hc, -⟩ := EStateM.map_eq_ok.mp hc
  · rw [readLogical_eq, readCounted_map] at hc
    obtain ⟨words, hc, -⟩ := EStateM.map_eq_ok.mp hc
    obtain ⟨⟨hlt, -⟩, hrest⟩ := (spells_readCounted Cursor.spells_int32).spelled hc
    exact ⟨.logical words, rfl, hlt, hrest⟩
  · obtain ⟨⟨hlt, -⟩, hrest⟩ := (spells_readCounted Cursor.spells_int32).spelled hc
    exact ⟨.integer items, rfl, hlt, hrest⟩
  · obtain ⟨⟨hlt, -⟩, hrest⟩ := (spells_readCounted spells_readDouble).spelled hc
    exact ⟨.double items, rfl, hlt, hrest⟩
  · obtain ⟨⟨hlt, -⟩, hrest⟩ := (spells_readCounted spells_readComplex).spelled hc
    exact ⟨.complex items, rfl, hlt, hrest⟩
  · obtain ⟨hlt, hrest⟩ := spells_readRaw.spelled hc
    exact ⟨.raw items, rfl, hlt, hrest⟩

theorem read (data : Data) (hl : data.length < 2 ^ 31) :
    ∃ r, atomsReader? data.type = some r ∧ ∀ position rest,
      r ⟨position, data.bytes ++ rest⟩ = .ok data.atoms ⟨position + data.bytes.length, rest⟩ := by
  cases data with
  | logical words =>
    refine ⟨_, rfl, fun position rest ↦ EStateM.map_of_ok ?_ _⟩
    rw [readLogical_eq, readCounted_map]
    exact EStateM.map_of_ok ((spells_readCounted Cursor.spells_int32).read
      ⟨hl, fun _ _ ↦ trivial⟩ position rest) _
  | integer items =>
    exact ⟨_, rfl, fun position rest ↦ EStateM.map_of_ok
      ((spells_readCounted Cursor.spells_int32).read ⟨hl, fun _ _ ↦ trivial⟩ position rest) _⟩
  | double items =>
    exact ⟨_, rfl, fun position rest ↦ EStateM.map_of_ok
      ((spells_readCounted spells_readDouble).read ⟨hl, fun _ _ ↦ trivial⟩ position rest) _⟩
  | complex items =>
    exact ⟨_, rfl, fun position rest ↦ EStateM.map_of_ok
      ((spells_readCounted spells_readComplex).read ⟨hl, fun _ _ ↦ trivial⟩ position rest) _⟩
  | raw items =>
    exact ⟨_, rfl, fun position rest ↦ EStateM.map_of_ok (spells_readRaw.read hl position rest) _⟩

theorem onCursor_read {data : Data} (hl : data.length < 2 ^ 31)
    (hr : atomsReader? data.type = some r) {s : Progress} {rest : List UInt8}
    (hs : s.cursor.rest = data.bytes ++ rest) :
    onCursor r s =
      .ok data.atoms { s with cursor := ⟨s.cursor.position + data.bytes.length, rest⟩ } := by
  obtain ⟨r', hr', hread⟩ := data.read hl
  obtain rfl := Option.some.inj (hr'.symm.trans hr)
  obtain ⟨⟨position, ahead⟩, table, log⟩ := s
  obtain rfl := hs
  rw [onCursor, hread]

end Data

def contentBytes : Option (List UInt8) → List UInt8
  | none => int32Bytes missingLength
  | some bytes => lengthBytes bytes.length ++ bytes

def indexBytes : Option Int32 → List UInt8
  | none => []
  | some index => int32Bytes index

mutual

def bytes : Wire → List UInt8
  | null word => word.bytes
  | reference word index? => word.bytes ++ indexBytes index?
  | char word content? attributes? =>
    word.bytes ++ (contentBytes content? ++ bytesOfPart attributes?)
  | symbol word name => word.bytes ++ name.bytes
  | atoms word data attributes? => word.bytes ++ (data.bytes ++ bytesOfPart attributes?)
  | strings word elements attributes? =>
    word.bytes ++ (lengthBytes elements.length ++ (bytesOfAll elements ++ bytesOfPart attributes?))
  | list word elements attributes? =>
    word.bytes ++ (lengthBytes elements.length ++ (bytesOfAll elements ++ bytesOfPart attributes?))
  | cell word attributes? tag? car cdr =>
    word.bytes ++ (bytesOfPart attributes? ++ (bytesOfPart tag? ++ (car.bytes ++ cdr.bytes)))
termination_by structural w => w

def bytesOfPart : Option Wire → List UInt8
  | none => []
  | some w => w.bytes
termination_by structural part? => part?

def bytesOfAll : List Wire → List UInt8
  | [] => []
  | w :: ws => w.bytes ++ bytesOfAll ws
termination_by structural ws => ws

end

def word : Wire → FlagWord
  | null word => word
  | reference word _ => word
  | char word _ _ => word
  | symbol word _ => word
  | atoms word _ _ => word
  | strings word _ _ => word
  | list word _ _ => word
  | cell word _ _ _ _ => word

def payload : Wire → List UInt8
  | null _ => []
  | reference _ index? => indexBytes index?
  | char _ content? attributes? => contentBytes content? ++ bytesOfPart attributes?
  | symbol _ name => name.bytes
  | atoms _ data attributes? => data.bytes ++ bytesOfPart attributes?
  | strings _ elements attributes? =>
    lengthBytes elements.length ++ (bytesOfAll elements ++ bytesOfPart attributes?)
  | list _ elements attributes? =>
    lengthBytes elements.length ++ (bytesOfAll elements ++ bytesOfPart attributes?)
  | cell _ attributes? tag? car cdr =>
    bytesOfPart attributes? ++ (bytesOfPart tag? ++ (car.bytes ++ cdr.bytes))

theorem bytes_eq (w : Wire) : w.bytes = w.word.bytes ++ w.payload := by
  cases w with
  | null word => exact (List.append_nil _).symm
  | _ => rfl

def isCell : Wire → Bool
  | cell .. => true
  | _ => false

mutual

/-- How deep the items inside an item lie below it. The cells of a chain lie side by side. -/
def inside : Wire → Nat
  | null _ => 0
  | reference _ _ => 0
  | char _ _ attributes? => insideOfPart attributes?
  | symbol _ name => 1 + name.inside
  | atoms _ _ attributes? => insideOfPart attributes?
  | strings _ elements attributes? => max (insideOfAll elements) (insideOfPart attributes?)
  | list _ elements attributes? => max (insideOfAll elements) (insideOfPart attributes?)
  | cell _ attributes? tag? car cdr =>
    max (insideOfPart attributes?) (max (insideOfPart tag?)
      (max (1 + car.inside) (if cdr.isCell then cdr.inside else 1 + cdr.inside)))
termination_by structural w => w

def insideOfPart : Option Wire → Nat
  | none => 0
  | some w => 1 + w.inside
termination_by structural part? => part?

def insideOfAll : List Wire → Nat
  | [] => 0
  | w :: ws => max (1 + w.inside) (insideOfAll ws)
termination_by structural ws => ws

end

/-- How deep the items in an item lie, itself included. -/
def nesting (w : Wire) : Nat := 1 + w.inside

/-- The same behind a car, where a cell adds no level of its own. -/
def behind (w : Wire) : Nat := if w.isCell then w.inside else w.nesting

theorem inside_pos {w : Wire} (h : w.isCell) : 0 < w.inside := by
  cases w with
  | cell word attributes? tag? car cdr =>
    rw [inside]
    omega
  | _ => cases h

mutual

/-- The type code and the bits of every flag word fit what follows it, and every length fits
its word. -/
def WellFormed : Wire → Prop
  | null word => word.type? = some .nil ∨ word.type? = some .nilValue
  | reference word index? =>
    word.type? = some .reference ∧ (index?.isSome ↔ word.packedIndex = 0)
  | char word content? attributes? =>
    word.type? = some .char ∧ (∀ bytes ∈ content?, bytes.length < 2 ^ 31) ∧
      attributes?.isSome = word.hasAttributes ∧ PartWellFormed attributes?
  | symbol word name =>
    word.type? = some .symbol ∧ word.hasAttributes = false ∧ name.WellFormed
  | atoms word data attributes? =>
    word.type? = some data.type ∧ data.length < 2 ^ 31 ∧
      attributes?.isSome = word.hasAttributes ∧ PartWellFormed attributes?
  | strings word elements attributes? =>
    word.type? = some .string ∧ elements.length < 2 ^ 31 ∧ AllWellFormed elements ∧
      attributes?.isSome = word.hasAttributes ∧ PartWellFormed attributes?
  | list word elements attributes? =>
    word.type? = some .list ∧ elements.length < 2 ^ 31 ∧ AllWellFormed elements ∧
      attributes?.isSome = word.hasAttributes ∧ PartWellFormed attributes?
  | cell word attributes? tag? car cdr =>
    (∃ kind, word.type?.bind TypeCode.pairKind? = some kind) ∧
      attributes?.isSome = word.hasAttributes ∧ PartWellFormed attributes? ∧
      tag?.isSome = word.hasTag ∧ PartWellFormed tag? ∧ car.WellFormed ∧ cdr.WellFormed
termination_by structural w => w

def PartWellFormed : Option Wire → Prop
  | none => True
  | some w => w.WellFormed
termination_by structural part? => part?

def AllWellFormed : List Wire → Prop
  | [] => True
  | w :: ws => w.WellFormed ∧ AllWellFormed ws
termination_by structural ws => ws

end

section Spelled

variable {s t : Progress}

theorem readLead_spelled {lead : Lead} (h : readLead s = .ok lead t) :
    s.cursor.rest = lead.flags.bytes ++ t.cursor.rest := by
  obtain ⟨p, u, hu, h⟩ := EStateM.bind_eq_ok.mp h
  cases hu
  obtain ⟨n, u, hn, h⟩ := EStateM.bind_eq_ok.mp h
  cases h
  exact (onCursor_spelled Cursor.spells_int32 hn).2

theorem readReference_spelled {flags : FlagWord} {v : Value}
    (h : readReference flags s = .ok v t) :
    ∃ index? : Option Int32, (index?.isSome ↔ flags.packedIndex = 0) ∧
      s.cursor.rest = indexBytes index? ++ t.cursor.rest := by
  have hresolve (i : Int32) (u : Progress)
      (h : (do require ((← get).table.resolve i) : Reading Value) u = .ok v t) : u = t := by
    obtain ⟨table, u', hu, h⟩ := EStateM.bind_eq_ok.mp h
    cases hu
    cases hv : u.table.resolve i with
    | ok w =>
      rw [hv] at h
      exact (EStateM.pure_eq_ok.mp h).2
    | error err =>
      rw [hv] at h
      exact absurd h EStateM.throw_ne_ok
  unfold readReference at h
  split at h
  · next hp =>
    obtain ⟨i, u, hi, h⟩ := EStateM.bind_eq_ok.mp h
    obtain rfl := hresolve i u h
    exact ⟨some i, ⟨fun _ ↦ hp, fun _ ↦ rfl⟩, (onCursor_spelled Cursor.spells_int32 hi).2⟩
  · next hp =>
    obtain ⟨i, u, hi, h⟩ := EStateM.bind_eq_ok.mp h
    cases hi
    obtain rfl := hresolve _ _ h
    exact ⟨none, ⟨nofun, fun h ↦ absurd h hp⟩, rfl⟩

/-- The text depends on the bytes of the string alone, and so does what is noted down. -/
theorem readChars_payload (origin : Origin) {payload back : List UInt8}
    (hl : payload.length < 2 ^ 31)
    (hs : s.cursor.rest = lengthBytes payload.length ++ (payload ++ back)) :
    readChars origin s = .ok (.text origin (String.ofList (Utf8.repair payload)))
      ⟨⟨s.cursor.position + 4 + payload.length, back⟩, s.table,
        ((Utf8.fault? payload).map Event.repaired).toList ++ s.log⟩ := by
  rw [lengthBytes] at hs
  unfold readChars
  rw [EStateM.bind_of_ok (onCursor_read Cursor.spells_int32 trivial hs),
    if_neg (length_ne_missing hl), if_neg (Cursor.nonneg_ofNat hl),
    Int32.toNatClampNeg_ofNat_of_lt hl,
    EStateM.bind_of_ok (onCursor_read (Cursor.spells_bytes _) rfl rfl), length_int32Bytes, id_eq]
  cases Utf8.fault? payload with
  | none => rfl
  | some fault => rfl

theorem readChars_spelled {origin : Origin} {content : Chars}
    (h : readChars origin s = .ok content t) :
    ∃ content? : Option (List UInt8), (∀ bytes ∈ content?, bytes.length < 2 ^ 31) ∧
      s.cursor.rest = contentBytes content? ++ t.cursor.rest := by
  obtain ⟨n, u, hn, h⟩ := EStateM.bind_eq_ok.mp h
  obtain ⟨-, hrest⟩ := onCursor_spelled Cursor.spells_int32 hn
  split at h
  · next hna =>
    cases h
    rw [hna] at hrest
    exact ⟨none, nofun, hrest⟩
  · split at h
    · cases h
    · next hneg =>
      obtain ⟨bytes, u', hb, h⟩ := EStateM.bind_eq_ok.mp h
      obtain ⟨hl, hrest'⟩ := onCursor_spelled (Cursor.spells_bytes _) hb
      have ht : u'.cursor = t.cursor := by
        cases hf : Utf8.fault? bytes <;> rw [hf] at h <;> cases h <;> rfl
      refine ⟨some bytes, fun _ hb ↦ ?_, ?_⟩
      · cases hb
        exact hl ▸ n.toNatClampNeg_lt
      · rw [contentBytes, lengthBytes, hl, Cursor.ofNat_clamp hneg, hrest, hrest', ht,
          List.append_assoc]
        rfl

end Spelled

end Wire

end Rds
