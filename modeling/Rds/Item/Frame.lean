import Rds.FlagWord
import Rds.Value.Attributes

namespace Rds.Item

structure Lead where
  offset : Nat
  flags : FlagWord
deriving DecidableEq

inductive Payload
  | atoms (atoms : Atoms)
  | elements (values : List Value)

inductive Part
  | attributes | tag | car
deriving DecidableEq

structure OpenCell where
  kind : PairKind
  lead : Lead
  awaits : Part
  attributes : Attributes
  tag : Option Chars

namespace OpenCell

def afterAttributes (flags : FlagWord) : Part :=
  if flags.hasTag then .tag else .car

def firstPart (flags : FlagWord) : Part :=
  if flags.hasAttributes then .attributes else afterAttributes flags

def start (kind : PairKind) (lead : Lead) : OpenCell :=
  ⟨kind, lead, firstPart lead.flags, [], none⟩

end OpenCell

/-- A container that is being read. The item read next belongs to the frame on top of
the stack. A frame counts the elements that follow the one it waits for. -/
inductive Frame
  | list (lead : Lead) (done : List Value) (more : Nat)
  | strings (lead : Lead) (done : List Chars) (more : Nat)
  | attributes (lead : Lead) (payload : Payload)
  | charAttributes (content : Chars)
  | symbolName
  | cell (closed : List Cell) (current : OpenCell)
  | tail (closed : List Cell)

structure Stack where
  frames : List Frame
  height : Nat
  height_eq : height = frames.length

namespace Stack

def empty : Stack := ⟨[], 0, rfl⟩

def push (s : Stack) (f : Frame) : Stack :=
  ⟨f :: s.frames, s.height + 1, congrArg (· + 1) s.height_eq⟩

def pop? (s : Stack) : Option (Frame × Stack) :=
  match h : s.frames with
  | [] => none
  | f :: fs => some (f, ⟨fs, s.height - 1, by simp [s.height_eq, h]⟩)

theorem height_push (s : Stack) (f : Frame) : (s.push f).height = s.height + 1 := rfl

theorem pop?_push (s : Stack) (f : Frame) : (s.push f).pop? = some (f, s) := rfl

theorem pop?_height {s t : Stack} {f : Frame} (h : s.pop? = some (f, t)) :
    s.height = t.height + 1 := by
  unfold pop? at h
  split at h
  · cases h
  · next fs hs =>
    cases h
    simp [s.height_eq, hs]

end Stack

end Rds.Item
