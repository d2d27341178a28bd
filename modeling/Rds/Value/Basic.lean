import Rds.Kind
import Rds.Scalar

namespace Rds

/-- Where a text or a container came into being: the number of the stream and the
offset in it. It stands for storage, so it is compared only to tell sharing. -/
structure Origin where
  stream : Nat
  offset : Nat
deriving DecidableEq

inductive Chars
  | na
  | text (origin : Origin) (content : String)

namespace Chars

def text? : Chars → Option String
  | na => none
  | text _ s => some s

def isNA : Chars → Bool
  | na => true
  | text .. => false

/-- All missing strings share, and texts share if they have one origin. -/
def shares : Chars → Chars → Bool
  | na, na => true
  | text o _, text p _ => o == p
  | _, _ => false

instance : BEq Chars := ⟨fun a b ↦ a.text? == b.text?⟩

end Chars

inductive Atoms
  | logical (items : List Logical)
  | integer (items : List Int32)
  | double (items : List Double)
  | complex (items : List Complex)
  | character (items : List Chars)
  | raw (items : List UInt8)

namespace Atoms

def kind : Atoms → Kind
  | logical _ => .logical
  | integer _ => .integer
  | double _ => .double
  | complex _ => .complex
  | character _ => .character
  | raw _ => .raw

def length : Atoms → Nat
  | logical xs => xs.length
  | integer xs => xs.length
  | double xs => xs.length
  | complex xs => xs.length
  | character xs => xs.length
  | raw xs => xs.length

/-- Whether each element is missing. Bytes never are. -/
def missing : Atoms → List Bool
  | logical xs => xs.map fun x ↦ x == .na
  | integer xs => xs.map fun x ↦ x == naInteger
  | double xs => xs.map Double.isNA
  | complex xs => xs.map Complex.isNA
  | character xs => xs.map Chars.isNA
  | raw xs => xs.map fun _ ↦ false

def isComplete (a : Atoms) : Bool := !a.missing.any id

/-- Element by element, doubles by their bits. -/
instance : BEq Atoms where
  beq
    | logical xs, logical ys => xs == ys
    | integer xs, integer ys => xs == ys
    | double xs, double ys => xs == ys
    | complex xs, complex ys => xs == ys
    | character xs, character ys => xs == ys
    | raw xs, raw ys => xs == ys
    | _, _ => false

end Atoms

inductive Value
  | null
  | symbol (name : Chars)
  | char (content : Chars)
  | vector (origin : Origin) (atoms : Atoms) (attributes : List (String × Value))
      (object : Bool)
  | list (origin : Origin) (elements : List Value) (attributes : List (String × Value))
      (object : Bool)
  | pair (origin : Origin) (kind : PairKind) (tag : Option Chars) (car cdr : Value)
      (attributes : List (String × Value)) (object : Bool)

/-- Attributes stand in canonical order: those with a meaning of their own first, the
others in the order in which they were first met. No name occurs twice. -/
abbrev Attributes := List (String × Value)

structure Cell where
  origin : Origin
  kind : PairKind
  tag : Option Chars
  car : Value
  attributes : Attributes
  object : Bool

namespace Cell

/-- Puts the cell in front of a chain. -/
def link (c : Cell) (cdr : Value) : Value :=
  .pair c.origin c.kind c.tag c.car cdr c.attributes c.object

end Cell

namespace Value

instance : Inhabited Value := ⟨null⟩

def kind : Value → Kind
  | null => .null
  | symbol _ => .symbol
  | char _ => .char
  | vector _ atoms _ _ => atoms.kind
  | list .. => .list
  | pair _ k .. => .pair k

def typeName (v : Value) : String := v.kind.name

def isNull : Value → Bool
  | null => true
  | _ => false

def attributes? : Value → Option Attributes
  | null => none
  | symbol _ => none
  | char _ => none
  | vector _ _ attributes _ => some attributes
  | list _ _ attributes _ => some attributes
  | pair _ _ _ _ _ attributes _ => some attributes

def attributes (v : Value) : Attributes := v.attributes?.getD []

def isObject : Value → Bool
  | vector _ _ _ object => object
  | list _ _ _ object => object
  | pair _ _ _ _ _ _ object => object
  | _ => false

def isComplete? : Value → Option Bool
  | vector _ atoms _ _ => some atoms.isComplete
  | _ => none

def symbolName? : Value → Option String
  | symbol name => name.text?
  | _ => none

def elements? : Value → Option (List Value)
  | list _ elements _ _ => some elements
  | _ => none

def unlink (cells : List Cell) : Value → List Cell × Value
  | pair origin kind tag car cdr attributes object =>
    unlink (⟨origin, kind, tag, car, attributes, object⟩ :: cells) cdr
  | v => (cells, v)

def cells (v : Value) : List Cell := (unlink [] v).1.reverse

def tail (v : Value) : Value := (unlink [] v).2

def length : Value → Nat
  | null => 0
  | symbol _ => 1
  | char _ => 1
  | vector _ atoms _ _ => atoms.length
  | list _ elements _ _ => elements.length
  | v@(pair ..) => v.cells.length

def isEmpty (v : Value) : Bool := v.length == 0

/-- Whether two values are one and the same storage. -/
def shares : Value → Value → Bool
  | null, null => true
  | symbol a, symbol b => a.shares b
  | char a, char b => a.shares b
  | vector o a _ _, vector p b _ _ => a.kind == b.kind && o == p
  | list o _ _ _, list p _ _ _ => o == p
  | pair o .., pair p .. => o == p
  | _, _ => false

end Value

end Rds
