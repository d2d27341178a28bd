import Rds.Proofs.Refusal

namespace Rds

def TypeCode.isCell : TypeCode → Bool
  | pairlist | language | closure | promise | dots => true
  | _ => false

namespace Countdown

open Item

variable {α β : Type}

/-- Where the reading of a cell stands. Behind the car the next flag word decides whether a
further cell follows or the item that ends the chain. -/
inductive Step
  | attributes | tag | car | cdr | tail
deriving DecidableEq

structure OpenCell where
  kind : PairKind
  lead : Lead
  step : Step
  attributes : Attributes
  tag : Option Chars

structure Chain where
  cells : List Cell
  current : OpenCell

/-- An open container that counts all elements still to come. Unlike a frame of `Item`, it can
also wait for none, and a cell can be left behind its car. -/
inductive Frame
  | list (lead : Lead) (elements : List Value) (remaining : Nat)
  | strings (lead : Lead) (elements : List Chars) (remaining : Nat)
  | attributes (lead : Lead) (payload : Payload)
  | charAttributes (content : Chars)
  | symbolName
  | chain (c : Chain)

structure Config where
  stack : List Frame
  next : Next

/-- How a step fails. Besides the errors of `Item`, a count may be taken below zero, and a cell
may be handed a further item behind its car. -/
inductive Failure
  | error (err : Error)
  | countBelowZero
  | itemBehindCar

abbrev Attempt := EStateM Failure Progress

def attempt (r : Reading α) : Attempt α := fun s ↦
  match r s with
  | .ok a t => .ok a t
  | .error err t => .error (.error err) t

/-- What a step comes to: the data of a vector is complete, or a chain is to be linked in front
of its tail, or neither of them. -/
inductive Turn
  | onward (c : Config)
  | vector (lead : Lead) (payload : Payload) (stack : List Frame)
  | link (cells : List Cell) (tail : Value) (stack : List Frame)

namespace OpenCell

def start (kind : PairKind) (lead : Lead) : OpenCell :=
  ⟨kind, lead, if lead.flags.hasAttributes then .attributes
    else if lead.flags.hasTag then .tag else .car, [], none⟩

def afterAttributes (c : OpenCell) : Step :=
  if c.lead.flags.hasTag then .tag else .car

def close (e : Setting) (c : OpenCell) (car : Value) : Cell × OpenCell :=
  (⟨e.origin c.lead, c.kind, c.tag, car, c.attributes, c.lead.flags.isObject⟩,
    { c with step := .cdr, attributes := [], tag := none })

end OpenCell

def countDown : Nat → Attempt Nat
  | 0 => throw .countBelowZero
  | n + 1 => return n

/-- Puts a frame back if it needs more items, or ends it. -/
def settle (stack : List Frame) : Frame → Attempt Turn
  | .list lead elements 0 => return .vector lead (.elements elements) stack
  | .strings lead elements 0 => return .vector lead (.atoms (.character elements)) stack
  | .chain ⟨cells, current⟩ =>
    if current.step = .cdr then do
      let lead ← attempt readLead
      match ((TypeCode.ofCode? lead.flags.typeByte).filter TypeCode.isCell).bind
          TypeCode.pairKind? with
      | some kind => return .onward ⟨.chain ⟨cells, .start kind lead⟩ :: stack, .item⟩
      | none =>
        return .onward ⟨.chain ⟨cells, { current with step := .tail }⟩ :: stack, .itemBehind lead⟩
    else return .onward ⟨.chain ⟨cells, current⟩ :: stack, .item⟩
  | frame => return .onward ⟨frame :: stack, .item⟩

variable (e : Setting)

def beginAs (lead : Lead) (stack : List Frame) (type : TypeCode) : Attempt Turn :=
  if type.isCell then
    match type.pairKind? with
    | some kind => return .onward ⟨.chain ⟨[], .start kind lead⟩ :: stack, .item⟩
    | none => throw (.error (.unsupported (.type lead.flags.typeByte)))
  else
    match type with
    | .nil => return .onward ⟨stack, .done .null⟩
    | .nilValue => return .onward ⟨stack, .done .null⟩
    | .reference => do
      return .onward ⟨stack, .done (← attempt (readReference lead.flags))⟩
    | .char => do
      let content ← attempt (readChars (e.origin lead))
      if lead.flags.hasAttributes then
        attempt (note .discardedAttributes)
        return .onward ⟨.charAttributes content :: stack, .item⟩
      else return .onward ⟨stack, .done (.char content)⟩
    | .symbol =>
      if lead.flags.hasAttributes then throw (.error (.malformedAttribute .onSymbol))
      else return .onward ⟨.symbolName :: stack, .item⟩
    | .list => do
      settle stack (.list lead [] (← attempt (onCursor Cursor.length)))
    | .string => do
      settle stack (.strings lead [] (← attempt (onCursor Cursor.length)))
    | type =>
      match atomsReader? type with
      | some reader => return .vector lead (.atoms (← attempt (onCursor reader))) stack
      | none => throw (.error (.unsupported (.type lead.flags.typeByte)))

def begin (lead : Lead) (stack : List Frame) : Attempt Turn :=
  match TypeCode.ofCode? lead.flags.typeByte with
  | none => throw (.error (.unsupported (.type lead.flags.typeByte)))
  | some type =>
    if e.maxDepth ≤ stack.length then throw (.error (.depthLimit e.maxDepth))
    else do
      attempt (note (.item type (← attempt get).cursor.position (stack.length + 1)))
      beginAs e lead stack type

def feedChain (v : Value) (stack : List Frame) (cells : List Cell) (c : OpenCell) :
    Attempt Turn :=
  match c.step with
  | .attributes => do
    let attributes ← attempt (bindAttributes v)
    settle stack (.chain ⟨cells, { c with attributes, step := c.afterAttributes }⟩)
  | .tag => do
    let tag ← attempt (require (tagOf v))
    settle stack (.chain ⟨cells, { c with tag, step := .car }⟩)
  | .car => settle stack (.chain ⟨cells ++ [(c.close e v).1], (c.close e v).2⟩)
  | .tail => return .link cells v stack
  | .cdr => throw .itemBehindCar

def feed (v : Value) (stack : List Frame) : Frame → Attempt Turn
  | .list lead elements remaining => do
    settle stack (.list lead (elements ++ [v]) (← countDown remaining))
  | .strings lead elements remaining =>
    match v with
    | .char s => do settle stack (.strings lead (elements ++ [s]) (← countDown remaining))
    | v => throw (.error (.malformedItem (.stringElement v.kind)))
  | .attributes lead payload => do
    return .onward ⟨stack, .done (build e lead (← attempt (bindAttributes v)) payload)⟩
  | .charAttributes content => return .onward ⟨stack, .done (.char content)⟩
  | .symbolName => do
    return .onward ⟨stack, .done (← attempt (register v))⟩
  | .chain ⟨cells, current⟩ => feedChain e v stack cells current

/-- A frame that waits for nothing is not safe from a further item. -/
example (v : Value) (lead : Lead) (s : Progress) :
    feed e v [] (.list lead [] 0) s = .error .countBelowZero s := rfl

def turn (c : Config) : Attempt (Value ⊕ Turn) :=
  match c.next with
  | .item => do
    let lead ← attempt readLead
    .inr <$> begin e lead c.stack
  | .itemBehind lead => .inr <$> begin e lead c.stack
  | .done v =>
    match c.stack with
    | [] => return .inl v
    | frame :: stack => .inr <$> feed e v stack frame

def closeVector (lead : Lead) (payload : Payload) (stack : List Frame) : Config :=
  if lead.flags.hasAttributes then ⟨.attributes lead payload :: stack, .item⟩
  else ⟨stack, .done (build e lead [] payload)⟩

def linkCells (cells : List Cell) (tail : Value) : Value :=
  cells.reverse.foldl (fun cdr cell ↦ cell.link cdr) tail

def Turn.config : Turn → Config
  | onward c => c
  | vector lead payload stack => closeVector e lead payload stack
  | link cells tail stack => ⟨stack, .done (linkCells cells tail)⟩

/-- The configurations that the reading of one item passes through. -/
inductive Reaches (s₀ : Progress) : Config → Progress → Prop
  | start : Reaches s₀ ⟨[], .item⟩ s₀
  | next {c : Config} {s t : Progress} {x : Turn} :
    Reaches s₀ c s → turn e c s = .ok (.inr x) t → Reaches s₀ (x.config e) t

section Attempt

variable {s t : Progress}

theorem attempt_of_ok {r : Reading α} {a : α} (h : r s = .ok a t) : attempt r s = .ok a t := by
  rw [attempt, h]

theorem attempt_of_error {r : Reading α} {err : Error} (h : r s = .error err t) :
    attempt r s = .error (.error err) t := by
  rw [attempt, h]

theorem attempt_eq_ok {r : Reading α} {a : α} (h : attempt r s = .ok a t) : r s = .ok a t := by
  cases hr : r s with
  | ok b u =>
    rw [attempt_of_ok hr] at h
    cases h
    rfl
  | error err u =>
    rw [attempt_of_error hr] at h
    cases h

theorem attempt_eq_error {r : Reading α} {failure : Failure} (h : attempt r s = .error failure t) :
    ∃ err, failure = .error err ∧ r s = .error err t := by
  cases hr : r s with
  | ok b u =>
    rw [attempt_of_ok hr] at h
    cases h
  | error err u =>
    rw [attempt_of_error hr] at h
    cases h
    exact ⟨err, rfl, rfl⟩

theorem attempt_pure (a : α) : attempt (pure a : Reading α) = pure a := rfl

theorem attempt_bind (r : Reading α) (f : α → Reading β) :
    attempt (r >>= f) = attempt r >>= fun a ↦ attempt (f a) := by
  funext s
  cases h : r s with
  | ok a t => rw [EStateM.bind_of_ok (attempt_of_ok h), attempt, EStateM.bind_of_ok h, attempt]
  | error err t =>
    rw [EStateM.bind_of_error (attempt_of_error h), attempt, EStateM.bind_of_error h]

theorem attempt_map (r : Reading α) (f : α → β) : attempt (f <$> r) = f <$> attempt r := by
  simp only [map_eq_pure_bind, attempt_bind, attempt_pure]

end Attempt

section Image

def OpenCell.image (c : OpenCell) (awaits : Part) : Item.OpenCell :=
  ⟨c.kind, c.lead, awaits, c.attributes, c.tag⟩

/-- The same frame in the form of `Item`. A chain behind a car has none, and is taken for one
that waits for its tail. -/
def Frame.image : Frame → Item.Frame
  | .list lead elements remaining => .list lead elements.reverse (remaining - 1)
  | .strings lead elements remaining => .strings lead elements.reverse (remaining - 1)
  | .attributes lead payload => .attributes lead payload
  | .charAttributes content => .charAttributes content
  | .symbolName => .symbolName
  | .chain ⟨cells, current⟩ =>
    match current.step with
    | .attributes => .cell cells.reverse (current.image .attributes)
    | .tag => .cell cells.reverse (current.image .tag)
    | .car => .cell cells.reverse (current.image .car)
    | .cdr | .tail => .tail cells.reverse

def stackImage (stack : List Frame) : Stack :=
  ⟨stack.map Frame.image, stack.length, List.length_map _ |>.symm⟩

theorem stackImage_cons (frame : Frame) (stack : List Frame) :
    stackImage (frame :: stack) = (stackImage stack).push frame.image := rfl

def Config.image (c : Config) : Item.Config := ⟨stackImage c.stack, c.next⟩

def Turn.image (x : Turn) : Item.Config := (x.config e).image

theorem image_bind (r : Reading α) {f : α → Attempt Turn} {g : α → Reading Item.Config}
    (h : ∀ a, Turn.image e <$> f a = attempt (g a)) :
    Turn.image e <$> (attempt r >>= f) = attempt (r >>= g) := by
  rw [attempt_bind, map_bind]
  exact congrArg (attempt r >>= ·) (funext h)

theorem image_ite {p : Prop} [Decidable p] {x y : Attempt Turn} {x' y' : Reading Item.Config}
    (hx : Turn.image e <$> x = attempt x') (hy : Turn.image e <$> y = attempt y') :
    Turn.image e <$> ite p x y = attempt (ite p x' y') := by
  split
  · exact hx
  · exact hy

theorem image_closeVector (lead : Lead) (payload : Payload) (stack : List Frame) :
    (closeVector e lead payload stack).image = close e lead payload (stackImage stack) := by
  unfold closeVector close
  split <;> rfl

theorem image_start (kind : PairKind) (lead : Lead) (cells : List Cell) :
    (Frame.chain ⟨cells, .start kind lead⟩).image = .cell cells.reverse (.start kind lead) := by
  unfold OpenCell.start Item.OpenCell.start OpenCell.firstPart Item.OpenCell.afterAttributes
  cases lead.flags.hasAttributes <;> cases lead.flags.hasTag <;> rfl

variable (stack : List Frame)

/-- The frame counts elements, and waits for none when the payload is complete. -/
structure Counts (frame : Nat → Frame) (lead : Lead) (payload : Payload) : Prop where
  complete : settle stack (frame 0) = pure (.vector lead payload stack)
  further (n : Nat) : settle stack (frame (n + 1)) = pure (.onward ⟨frame (n + 1) :: stack, .item⟩)

theorem counts_list (lead : Lead) (elements : List Value) :
    Counts stack (.list lead elements) lead (.elements elements) := ⟨rfl, fun _ ↦ rfl⟩

theorem counts_strings (lead : Lead) (elements : List Chars) :
    Counts stack (.strings lead elements) lead (.atoms (.character elements)) :=
  ⟨rfl, fun _ ↦ rfl⟩

variable {stack} in
theorem Counts.image_settle {frame : Nat → Frame} {lead : Lead} {payload : Payload}
    (h : Counts stack frame lead payload) {frame' : Nat → Item.Frame}
    (hf : ∀ n, (frame (n + 1)).image = frame' n) (n : Nat) :
    Turn.image e <$> settle stack (frame n) =
      pure (awaitNext e frame' lead payload (stackImage stack) n) := by
  cases n with
  | zero =>
    rw [h.complete, awaitNext, ← image_closeVector]
    rfl
  | succ n =>
    rw [h.further, awaitNext, ← hf]
    rfl

theorem filter_isCell (type? : Option TypeCode) :
    (type?.filter TypeCode.isCell).bind TypeCode.pairKind? = type?.bind TypeCode.pairKind? := by
  cases type? with
  | none => rfl
  | some type => cases type <;> rfl

theorem settle_chain {c : OpenCell} (h : c.step ≠ .cdr) (cells : List Cell) :
    settle stack (.chain ⟨cells, c⟩) = pure (.onward ⟨.chain ⟨cells, c⟩ :: stack, .item⟩) :=
  if_neg h

theorem image_settle_cdr {c : OpenCell} (h : c.step = .cdr) (cells : List Cell) :
    Turn.image e <$> settle stack (.chain ⟨cells, c⟩) =
      attempt (follow cells.reverse (stackImage stack)) := by
  rw [settle, if_pos h]
  refine image_bind e readLead fun lead ↦ ?_
  rw [filter_isCell]
  cases (TypeCode.ofCode? lead.flags.typeByte).bind TypeCode.pairKind? with
  | none => rfl
  | some kind =>
    dsimp only
    rw [← image_start, ← stackImage_cons]
    rfl

theorem image_beginAs (lead : Lead) (type : TypeCode) :
    Turn.image e <$> beginAs e lead stack type =
      attempt (enterAs e lead (stackImage stack) type) := by
  cases type with
  | pairlist | language | closure | promise | dots =>
    exact congrArg (fun frame ↦ (pure ⟨(stackImage stack).push frame, .item⟩ : Attempt Item.Config))
      (image_start _ lead [])
  | reference => exact image_bind e (readReference lead.flags) fun _ ↦ rfl
  | char =>
    exact image_bind e (readChars (e.origin lead)) fun _ ↦
      image_ite e (image_bind e (note .discardedAttributes) fun _ ↦ rfl) rfl
  | symbol => exact image_ite e (p := lead.flags.hasAttributes = true) rfl rfl
  | list =>
    exact image_bind e (onCursor Cursor.length)
      ((counts_list stack lead []).image_settle e fun _ ↦ rfl)
  | string =>
    exact image_bind e (onCursor Cursor.length)
      ((counts_strings stack lead []).image_settle e fun _ ↦ rfl)
  | logical | integer | double | complex | raw =>
    exact image_bind e (onCursor _) fun atoms ↦
      congrArg (pure : _ → Attempt Item.Config) (image_closeVector e lead (.atoms atoms) stack)
  | _ => rfl

theorem image_begin (lead : Lead) :
    Turn.image e <$> begin e lead stack = attempt (enter e lead (stackImage stack)) := by
  unfold begin enter
  cases TypeCode.ofCode? lead.flags.typeByte with
  | none => rfl
  | some type =>
    exact image_ite e rfl (image_bind e get fun s ↦ image_bind e (note _) fun _ ↦
      image_beginAs e stack lead type)

def Frame.Waits : Frame → Prop
  | .list _ _ remaining => remaining ≠ 0
  | .strings _ _ remaining => remaining ≠ 0
  | .chain c => c.current.step ≠ .cdr
  | _ => True

theorem image_afterAttributes (c : OpenCell) (cells : List Cell) (attributes : Attributes) :
    (Frame.chain ⟨cells, { c with attributes, step := c.afterAttributes }⟩).image =
      .cell cells.reverse { c.image .attributes with
        attributes, awaits := Item.OpenCell.afterAttributes c.lead.flags } := by
  unfold OpenCell.afterAttributes Item.OpenCell.afterAttributes
  cases c.lead.flags.hasTag <;> rfl

theorem afterAttributes_ne_cdr (c : OpenCell) : c.afterAttributes ≠ .cdr := by
  unfold OpenCell.afterAttributes
  split <;> exact nofun

theorem image_feed (v : Value) {frame : Frame} (h : frame.Waits) :
    Turn.image e <$> feed e v stack frame = attempt (deliver e v (stackImage stack) frame.image) := by
  cases frame with
  | list lead elements remaining =>
    cases remaining with
    | zero => exact absurd rfl h
    | succ n =>
      change _ = attempt (pure (awaitElements e lead (v :: elements.reverse) (stackImage stack) n))
      rw [awaitElements, List.reverse_cons, List.reverse_reverse]
      refine (counts_list stack lead (elements ++ [v])).image_settle e (fun _ ↦ ?_) n
      rw [Frame.image, List.reverse_append]
      rfl
  | strings lead elements remaining =>
    cases remaining with
    | zero => exact absurd rfl h
    | succ n =>
      cases v with
      | char content =>
        change _ =
          attempt (pure (awaitStrings e lead (content :: elements.reverse) (stackImage stack) n))
        rw [awaitStrings, List.reverse_cons, List.reverse_reverse]
        refine (counts_strings stack lead (elements ++ [content])).image_settle e (fun _ ↦ ?_) n
        rw [Frame.image, List.reverse_append]
        rfl
      | _ => rfl
  | attributes lead payload => exact image_bind e (bindAttributes v) fun _ ↦ rfl
  | charAttributes content => rfl
  | symbolName => exact image_bind e (register v) fun _ ↦ rfl
  | chain c =>
    obtain ⟨cells, current⟩ := c
    obtain ⟨kind, lead, step, attributes, tag⟩ := current
    cases step with
    | attributes =>
      refine image_bind e (bindAttributes v) fun bound ↦ ?_
      rw [settle_chain stack (afterAttributes_ne_cdr _)]
      exact congrArg
        (fun frame ↦ (pure ⟨(stackImage stack).push frame, .item⟩ : Attempt Item.Config))
        (image_afterAttributes ⟨kind, lead, .attributes, attributes, tag⟩ cells bound)
    | tag => exact image_bind e (require (tagOf v)) fun _ ↦ rfl
    | car =>
      have hcdr := image_settle_cdr e stack (c := ⟨kind, lead, .cdr, [], none⟩) rfl
        (cells ++ [⟨e.origin lead, kind, tag, v, attributes, lead.flags.isObject⟩])
      rw [List.reverse_append] at hcdr
      exact hcdr
    | tail => rfl
    | cdr => exact absurd rfl h

/-- From a configuration all of whose frames wait, a step is one of `Item`. -/
theorem image_turn {c : Config} (h : ∀ frame ∈ c.stack, frame.Waits) :
    Sum.map id (Turn.image e) <$> turn e c = attempt (step e c.image) := by
  obtain ⟨stack, next⟩ := c
  have hinr (r : Attempt Turn) (r' : Reading Item.Config) (h : Turn.image e <$> r = attempt r') :
      Sum.map id (Turn.image e) <$> (Sum.inr (α := Value) <$> r) =
        attempt (Sum.inr (α := Value) <$> r') := by
    rw [attempt_map, ← h, Functor.map_map, Functor.map_map]
    rfl
  cases next with
  | item =>
    change Sum.map id (Turn.image e) <$> (attempt readLead >>= _) = attempt (readLead >>= _)
    rw [attempt_bind, map_bind]
    exact congrArg (attempt readLead >>= ·)
      (funext fun lead ↦ hinr _ _ (image_begin e stack lead))
  | itemBehind lead => exact hinr _ _ (image_begin e stack lead)
  | done v =>
    cases stack with
    | nil => rfl
    | cons frame stack => exact hinr _ _ (image_feed e stack v (h frame List.mem_cons_self))

end Image

end Countdown

end Rds
