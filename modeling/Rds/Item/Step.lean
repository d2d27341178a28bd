import Rds.Item.Progress

namespace Rds.Item

/-- What is to be done next: to read an item, to read the rest of an item whose flag
word has been read, or to hand a finished item to the frame that waits for it. -/
inductive Next
  | item
  | itemBehind (lead : Lead)
  | done (value : Value)

structure Config where
  stack : Stack
  next : Next

structure Setting where
  maxDepth : Nat
  stream : Nat

namespace Setting

def origin (e : Setting) (lead : Lead) : Origin := ⟨e.stream, lead.offset⟩

end Setting

variable (e : Setting)

def build (lead : Lead) (attributes : Attributes) : Payload → Value
  | .atoms atoms => .vector (e.origin lead) atoms attributes lead.flags.isObject
  | .elements values => .list (e.origin lead) values attributes lead.flags.isObject

def closeCell (c : OpenCell) (car : Value) : Cell :=
  ⟨e.origin c.lead, c.kind, c.tag, car, c.attributes, c.lead.flags.isObject⟩

def close (lead : Lead) (payload : Payload) (stack : Stack) : Config :=
  if lead.flags.hasAttributes then ⟨stack.push (.attributes lead payload), .item⟩
  else ⟨stack, .done (build e lead [] payload)⟩

/-- Further elements are awaited in a frame, or with the last one the data is complete. -/
def awaitNext (frame : Nat → Frame) (lead : Lead) (payload : Payload) (stack : Stack) :
    Nat → Config
  | 0 => close e lead payload stack
  | n + 1 => ⟨stack.push (frame n), .item⟩

def awaitElements (lead : Lead) (done : List Value) : Stack → Nat → Config :=
  awaitNext e (.list lead done) lead (.elements done.reverse)

def awaitStrings (lead : Lead) (done : List Chars) : Stack → Nat → Config :=
  awaitNext e (.strings lead done) lead (.atoms (.character done.reverse))

def enterAs (lead : Lead) (stack : Stack) : TypeCode → Reading Config
  | .nil => return ⟨stack, .done .null⟩
  | .nilValue => return ⟨stack, .done .null⟩
  | .reference => do
    return ⟨stack, .done (← readReference lead.flags)⟩
  | .char => do
    let content ← readChars (e.origin lead)
    if lead.flags.hasAttributes then
      note .discardedAttributes
      return ⟨stack.push (.charAttributes content), .item⟩
    else
      return ⟨stack, .done (.char content)⟩
  | .symbol =>
    if lead.flags.hasAttributes then throw (.malformedAttribute .onSymbol)
    else return ⟨stack.push .symbolName, .item⟩
  | .list => do
    return awaitElements e lead [] stack (← onCursor Cursor.length)
  | .string => do
    return awaitStrings e lead [] stack (← onCursor Cursor.length)
  | type =>
    match atomsReader? type, type.pairKind? with
    | some reader, _ => do
      return close e lead (.atoms (← onCursor reader)) stack
    | none, some kind => return ⟨stack.push (.cell [] (.start kind lead)), .item⟩
    | none, none => throw (.unsupported (.type lead.flags.typeByte))

/-- Begins an item. Its type is judged before its depth. -/
def enter (lead : Lead) (stack : Stack) : Reading Config :=
  match TypeCode.ofCode? lead.flags.typeByte with
  | none => throw (.unsupported (.type lead.flags.typeByte))
  | some type =>
    if e.maxDepth ≤ stack.height then throw (.depthLimit e.maxDepth)
    else do
      note (.item type (← get).cursor.position (stack.height + 1))
      enterAs e lead stack type

/-- The cell behind a car is either a further cell or the item that ends the chain. -/
def follow (closed : List Cell) (stack : Stack) : Reading Config := do
  let lead ← readLead
  match (TypeCode.ofCode? lead.flags.typeByte).bind TypeCode.pairKind? with
  | some kind => return ⟨stack.push (.cell closed (.start kind lead)), .item⟩
  | none => return ⟨stack.push (.tail closed), .itemBehind lead⟩

def bindAttributes (v : Value) : Reading Attributes :=
  match Attributes.bind v with
  | .ok as => return as
  | .error fault => throw (.malformedAttribute fault)

/-- A symbol is entered into the table when its name is complete. -/
def register : Value → Reading Value
  | .char name => modifyGet fun ⟨cursor, table, log⟩ ↦
    let table := table.push (.symbol name)
    (.symbol name, ⟨cursor, table, .registered name table.size :: log⟩)
  | v => throw (.malformedItem (.symbolName v.kind))

def tagOf : Value → Except Error (Option Chars)
  | .symbol name => .ok (some name)
  | .char name => .ok (some name)
  | .null => .ok none
  | v => .error (.malformedItem (.tag v.kind))

def linkAll (closed : List Cell) (tail : Value) : Value :=
  closed.foldl (fun cdr cell ↦ cell.link cdr) tail

def deliverPart (closed : List Cell) (c : OpenCell) (v : Value) (stack : Stack) :
    Reading Config :=
  match c.awaits with
  | .attributes => do
    let attributes ← bindAttributes v
    let awaits := OpenCell.afterAttributes c.lead.flags
    return ⟨stack.push (.cell closed { c with attributes, awaits }), .item⟩
  | .tag => do
    let tag ← require (tagOf v)
    return ⟨stack.push (.cell closed { c with tag, awaits := .car }), .item⟩
  | .car => follow (closeCell e c v :: closed) stack

def deliver (v : Value) (stack : Stack) : Frame → Reading Config
  | .list lead done more => return awaitElements e lead (v :: done) stack more
  | .strings lead done more =>
    match v with
    | .char s => return awaitStrings e lead (s :: done) stack more
    | v => throw (.malformedItem (.stringElement v.kind))
  | .attributes lead payload => do
    return ⟨stack, .done (build e lead (← bindAttributes v) payload)⟩
  | .charAttributes content => return ⟨stack, .done (.char content)⟩
  | .symbolName => do
    return ⟨stack, .done (← register v)⟩
  | .cell closed current => deliverPart e closed current v stack
  | .tail closed => return ⟨stack, .done (linkAll closed v)⟩

/-- One step of reading. An item that no frame waits for is the result. -/
def step (c : Config) : Reading (Value ⊕ Config) :=
  match c.next with
  | .item => do
    let lead ← readLead
    .inr <$> enter e lead c.stack
  | .itemBehind lead => .inr <$> enter e lead c.stack
  | .done v =>
    match c.stack.pop? with
    | none => return .inl v
    | some (frame, stack) => .inr <$> deliver e v stack frame

end Rds.Item
