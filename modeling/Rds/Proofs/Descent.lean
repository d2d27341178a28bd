import Rds.Proofs.Reading

namespace Rds.Descent

open Item

variable {α : Type} (e : Setting)

def times (r : Reading α) : Nat → Reading (List α)
  | 0 => return []
  | n + 1 => do
    let a ← r
    let as ← times r n
    return a :: as

def attributes (nested : Reading Value) (flags : FlagWord) : Reading Attributes := do
  if flags.hasAttributes then bindAttributes (← nested) else return []

def tag (nested : Reading Value) (flags : FlagWord) : Reading (Option Chars) := do
  if flags.hasTag then require (tagOf (← nested)) else return none

def dropAttributes (nested : Reading Value) (flags : FlagWord) : Reading Unit := do
  if flags.hasAttributes then
    note .discardedAttributes
    let _ ← nested
    return ()
  else return ()

def string (nested : Reading Value) : Reading Chars := do
  match ← nested with
  | .char s => return s
  | v => throw (.malformedItem (.stringElement v.kind))

def cell (nested cdr : Reading Value) (lead : Lead) (kind : PairKind) : Reading Value := do
  let attributes ← attributes nested lead.flags
  let tag ← tag nested lead.flags
  let car ← nested
  let rest ← cdr
  return .pair (e.origin lead) kind tag car rest attributes lead.flags.isObject

def contentAs (nested cdr : Reading Value) (lead : Lead) : TypeCode → Reading Value
  | .nil => return .null
  | .nilValue => return .null
  | .reference => readReference lead.flags
  | .char => do
    let content ← readChars (e.origin lead)
    dropAttributes nested lead.flags
    return .char content
  | .symbol =>
    if lead.flags.hasAttributes then throw (.malformedAttribute .onSymbol)
    else do
      register (← nested)
  | .list => do
    let elements ← times nested (← onCursor Cursor.length)
    let attributes ← attributes nested lead.flags
    return .list (e.origin lead) elements attributes lead.flags.isObject
  | .string => do
    let strings ← times (string nested) (← onCursor Cursor.length)
    let attributes ← attributes nested lead.flags
    return .vector (e.origin lead) (.character strings) attributes lead.flags.isObject
  | type =>
    match atomsReader? type, type.pairKind? with
    | some reader, _ => do
      let atoms ← onCursor reader
      let attributes ← attributes nested lead.flags
      return .vector (e.origin lead) atoms attributes lead.flags.isObject
    | none, some kind => cell e nested cdr lead kind
    | none, none => throw (.unsupported (.type lead.flags.typeByte))

def content (nested cdr : Reading Value) (depth : Nat) (lead : Lead) : Reading Value :=
  match TypeCode.ofCode? lead.flags.typeByte with
  | none => throw (.unsupported (.type lead.flags.typeByte))
  | some type =>
    if e.maxDepth ≤ depth then throw (.depthLimit e.maxDepth)
    else do
      note (.item type (← get).cursor.position (depth + 1))
      contentAs e nested cdr lead type

mutual

/-- Reads an item inside `depth` others by recursive descent. Every item takes bytes, so
`n` recursive calls suffice where `n` bytes are ahead, and with none ahead a flag word is
missing. -/
def item : Nat → Nat → Reading Value
  | 0, _ => throw (.truncated 4 0)
  | n + 1, depth => do
    let lead ← readLead
    content e (item n (depth + 1)) (rest n depth) depth lead

/-- Reads what follows the car of a cell: a further cell at the same depth, or else the
item that ends the chain, which lies one level deeper. -/
def rest : Nat → Nat → Reading Value
  | 0, _ => throw (.truncated 4 0)
  | n + 1, depth => do
    let lead ← readLead
    match (TypeCode.ofCode? lead.flags.typeByte).bind TypeCode.pairKind? with
    | some kind => cell e (item n (depth + 1)) (rest n depth) lead kind
    | none => content e (item n (depth + 2)) (rest n (depth + 1)) (depth + 1) lead

end

section Compositional

variable {P : ∀ {α : Type}, Reading α → Prop} (hP : Compositional P) {nested cdr : Reading Value}

include hP

theorem compositional_times {r : Reading α} (hr : P r) (n : Nat) : P (times r n) := by
  induction n with
  | zero => exact hP.pure _
  | succ n ih => exact hP.bind hr fun _ ↦ hP.bind ih fun _ ↦ hP.pure _

theorem compositional_attributes (hn : P nested) (flags : FlagWord) :
    P (attributes nested flags) := by
  unfold attributes
  split
  · exact hP.bind hn hP.bindAttributes
  · exact hP.pure _

theorem compositional_tag (hn : P nested) (flags : FlagWord) : P (tag nested flags) := by
  unfold tag
  split
  · exact hP.bind hn hP.requireTag
  · exact hP.pure _

theorem compositional_dropAttributes (hn : P nested) (flags : FlagWord) :
    P (dropAttributes nested flags) := by
  unfold dropAttributes
  split
  · exact hP.bind (hP.warn _ rfl) fun _ ↦ hP.bind hn fun _ ↦ hP.pure _
  · exact hP.pure _

theorem compositional_string (hn : P nested) : P (string nested) := by
  refine hP.bind hn fun v ↦ ?_
  split
  · exact hP.pure _
  · exact hP.throw nofun

theorem compositional_cell (hn : P nested) (hc : P cdr) (lead : Lead) (kind : PairKind) :
    P (cell e nested cdr lead kind) :=
  hP.bind (compositional_attributes hP hn _) fun _ ↦
    hP.bind (compositional_tag hP hn _) fun _ ↦
      hP.bind hn fun _ ↦ hP.bind hc fun _ ↦ hP.pure _

theorem compositional_contentAs (hn : P nested) (hc : P cdr) (lead : Lead) (type : TypeCode) :
    P (contentAs e nested cdr lead type) := by
  unfold contentAs
  split
  · exact hP.pure _
  · exact hP.pure _
  · exact hP.readReference _
  · exact hP.bind (hP.readChars _) fun _ ↦
      hP.bind (compositional_dropAttributes hP hn _) fun _ ↦ hP.pure _
  · split
    · exact hP.throw nofun
    · exact hP.bind hn hP.registered
  · exact hP.bind hP.length fun n ↦ hP.bind (compositional_times hP hn n) fun _ ↦
      hP.bind (compositional_attributes hP hn _) fun _ ↦ hP.pure _
  · exact hP.bind hP.length fun n ↦
      hP.bind (compositional_times hP (compositional_string hP hn) n) fun _ ↦
        hP.bind (compositional_attributes hP hn _) fun _ ↦ hP.pure _
  · split
    · next hr =>
      exact hP.bind (hP.atomsReader hr) fun _ ↦
        hP.bind (compositional_attributes hP hn _) fun _ ↦ hP.pure _
    · exact compositional_cell e hP hn hc _ _
    · exact hP.throw nofun

variable (hlimit : ∀ k, P (throw (.depthLimit k) : Reading Value))

include hlimit

theorem compositional_content (hn : P nested) (hc : P cdr) (depth : Nat) (lead : Lead) :
    P (content e nested cdr depth lead) := by
  unfold content
  split
  · exact hP.throw nofun
  · split
    · exact hlimit _
    · next type _ _ =>
      exact hP.position (f := fun p ↦
          note (.item type p (depth + 1)) >>= fun _ ↦ contentAs e nested cdr lead type)
        fun _ ↦ hP.bind (hP.item _ _ _) fun _ ↦ compositional_contentAs e hP hn hc _ _

/-- What holds of the elementary readings holds of a whole descent. -/
theorem compositional_item_rest (n : Nat) :
    (∀ depth, P (item e n depth)) ∧ ∀ depth, P (rest e n depth) := by
  induction n with
  | zero => exact ⟨fun _ ↦ hP.throw nofun, fun _ ↦ hP.throw nofun⟩
  | succ n ih =>
    obtain ⟨hi, hr⟩ := ih
    constructor
    · intro depth
      rw [item]
      exact hP.bind hP.readLead fun _ ↦ compositional_content e hP hlimit (hi _) (hr _) _ _
    · intro depth
      rw [rest]
      refine hP.bind hP.readLead fun lead ↦ ?_
      split
      · exact compositional_cell e hP (hi _) (hr _) _ _
      · exact compositional_content e hP hlimit (hi _) (hr _) _ _

end Compositional

end Rds.Descent
