import Rds.Item.Run
import Rds.Proofs.Descent

namespace Rds.Descent

open Item

variable {α β : Type}

theorem advances_item_rest (e : Setting) (n : Nat) :
    (∀ depth, Advances 0 (item e n depth)) ∧ ∀ depth, Advances 0 (rest e n depth) :=
  compositional_item_rest e compositional_advances (fun _ ↦ advances_throw 0 _) n

/-- Both readings do the same wherever at most `n` bytes are ahead. -/
def AgreeWithin (n : Nat) (r r' : Reading α) : Prop :=
  ∀ s, s.cursor.remaining ≤ n → r s = r' s

namespace AgreeWithin

variable {n k : Nat} {r r' r'' : Reading α}

theorem of_eq (h : r = r') : AgreeWithin n r r' := fun s _ ↦ congrFun h s

theorem trans (h : AgreeWithin n r r') (h' : AgreeWithin n r' r'') : AgreeWithin n r r'' :=
  fun s hs ↦ (h s hs).trans (h' s hs)

theorem bind {f f' : α → Reading β} (hr : Advances k r) (hf : ∀ a, AgreeWithin n (f a) (f' a)) :
    AgreeWithin (n + k) (r >>= f) (r >>= f') := by
  intro s hs
  cases h : r s with
  | ok a t =>
    have := hr s a t h
    rw [EStateM.bind_of_ok h, EStateM.bind_of_ok h]
    exact hf a t (by omega)
  | error err t => rw [EStateM.bind_of_error h, EStateM.bind_of_error h]

theorem mono (h : AgreeWithin k r r') (hk : n ≤ k) : AgreeWithin n r r' :=
  fun s hs ↦ h s (Nat.le_trans hs hk)

end AgreeWithin

variable (e : Setting)

def resume (c : Config) : Reading Value := run e c

theorem resume_eq (c : Config) :
    resume e c = (do
      match ← step e c with
      | .inl v => return v
      | .inr d => resume e d) := by
  funext s
  unfold resume
  rw [run]
  split
  · next v t h => rw [EStateM.bind_of_ok h]; rfl
  · next d t h => rw [EStateM.bind_of_ok h]
  · next err t h => rw [EStateM.bind_of_error h]

theorem resume_item (stack : Stack) :
    resume e ⟨stack, .item⟩ = (do
      let lead ← readLead
      resume e (← enter e lead stack)) := by
  rw [resume_eq]
  simp only [step, bind_assoc, bind_map_left]

theorem resume_itemBehind (stack : Stack) (lead : Lead) :
    resume e ⟨stack, .itemBehind lead⟩ = (do resume e (← enter e lead stack)) := by
  rw [resume_eq]
  simp only [step, bind_map_left]

theorem resume_done_empty (v : Value) : resume e ⟨.empty, .done v⟩ = pure v := by
  rw [resume_eq]
  rfl

theorem resume_done_push (stack : Stack) (frame : Frame) (v : Value) :
    resume e ⟨stack.push frame, .done v⟩ = (do resume e (← deliver e v stack frame)) := by
  rw [resume_eq]
  simp only [step, Stack.pop?_push, bind_map_left]

/-- The machine reads every item above `stack` as `nested` does, and every rest of a chain
that hangs on `stack` as `cdr` does, wherever at most `n` bytes are ahead. -/
structure Follows (n : Nat) (stack : Stack) (nested cdr : Reading Value) : Prop where
  advances : Advances 0 nested
  item : ∀ frame, AgreeWithin n (resume e ⟨stack.push frame, .item⟩) do
    resume e (← deliver e (← nested) stack frame)
  rest : ∀ closed, AgreeWithin n (do resume e (← follow closed stack)) do
    resume e ⟨stack, .done (linkAll closed (← cdr))⟩

namespace Follows

variable {e} {n : Nat} {stack : Stack} {nested cdr : Reading Value}
  (h : Follows e n stack nested cdr)

include h

theorem close (lead : Lead) (payload : Payload) :
    AgreeWithin n (resume e (close e lead payload stack)) (do
      resume e ⟨stack, .done (build e lead (← attributes nested lead.flags) payload)⟩) := by
  unfold Item.close attributes
  split
  · refine (h.item _).trans (.of_eq ?_)
    simp only [deliver, bind_assoc, pure_bind]
  · refine .of_eq ?_
    rw [pure_bind]

theorem awaitElements (lead : Lead) (done : List Value) (k : Nat) :
    AgreeWithin n (resume e (awaitElements e lead done stack k)) (do
      resume e (Item.close e lead (.elements (done.reverse ++ (← times nested k))) stack)) := by
  induction k generalizing done with
  | zero =>
    refine .of_eq ?_
    rw [times, pure_bind, List.append_nil, Item.awaitElements, awaitNext]
  | succ k ih =>
    refine (h.item _).trans ?_
    simp only [deliver, pure_bind, times, bind_assoc]
    refine AgreeWithin.bind (k := 0) h.advances fun v ↦ (ih (v :: done)).trans (.of_eq ?_)
    simp only [List.reverse_cons, List.append_assoc, List.singleton_append]

theorem awaitStrings (lead : Lead) (done : List Chars) (k : Nat) :
    AgreeWithin n (resume e (awaitStrings e lead done stack k)) (do
      resume e (Item.close e lead
        (.atoms (.character (done.reverse ++ (← times (string nested) k)))) stack)) := by
  induction k generalizing done with
  | zero =>
    refine .of_eq ?_
    rw [times, pure_bind, List.append_nil, Item.awaitStrings, awaitNext]
  | succ k ih =>
    refine (h.item _).trans ?_
    simp only [deliver, times, string, bind_assoc]
    refine AgreeWithin.bind (k := 0) h.advances fun v ↦ ?_
    split
    · next s =>
      simp only [pure_bind]
      refine (ih (s :: done)).trans (.of_eq ?_)
      simp only [List.reverse_cons, List.append_assoc, List.singleton_append, string]
    · simp only [EStateM.throw_bind]
      exact .of_eq rfl

theorem car (closed : List Cell) (c : OpenCell) (hc : c.awaits = .car) :
    AgreeWithin n (resume e ⟨stack.push (.cell closed c), .item⟩) (do
      let car ← nested
      resume e ⟨stack, .done (linkAll closed ((closeCell e c car).link (← cdr)))⟩) := by
  refine (h.item _).trans ?_
  simp only [deliver, deliverPart, hc]
  exact AgreeWithin.bind (k := 0) h.advances fun v ↦ h.rest (closeCell e c v :: closed)

theorem tagAndCar (closed : List Cell) (c : OpenCell)
    (hc : c.awaits = OpenCell.afterAttributes c.lead.flags) (ht : c.tag = none) :
    AgreeWithin n (resume e ⟨stack.push (.cell closed c), .item⟩) (do
      let tag ← tag nested c.lead.flags
      let car ← nested
      let rest ← cdr
      resume e ⟨stack, .done (linkAll closed ((closeCell e { c with tag } car).link rest))⟩) := by
  unfold tag
  unfold OpenCell.afterAttributes at hc
  split
  · next hf =>
    rw [if_pos hf] at hc
    refine (h.item _).trans ?_
    simp only [deliver, deliverPart, hc, bind_assoc, pure_bind]
    refine AgreeWithin.bind (k := 0) h.advances fun v ↦ ?_
    exact AgreeWithin.bind (k := 0) (advances_require _) fun tag ↦ h.car closed _ rfl
  · next hf =>
    rw [if_neg hf] at hc
    refine (h.car closed c hc).trans (.of_eq ?_)
    rw [pure_bind, ← ht]

theorem cell (lead : Lead) (kind : PairKind) (closed : List Cell) :
    AgreeWithin n (resume e ⟨stack.push (.cell closed (.start kind lead)), .item⟩) (do
      resume e ⟨stack, .done (linkAll closed (← cell e nested cdr lead kind))⟩) := by
  unfold Descent.cell attributes
  simp only [bind_assoc, pure_bind]
  split
  · next hf =>
    have hc : (OpenCell.start kind lead).awaits = .attributes := if_pos hf
    refine (h.item _).trans ?_
    simp only [deliver, deliverPart, hc, bind_assoc, pure_bind]
    refine AgreeWithin.bind (k := 0) h.advances fun v ↦ ?_
    exact AgreeWithin.bind (k := 0) (advances_bindAttributes v) fun _ ↦ h.tagAndCar closed _ rfl rfl
  · next hf =>
    rw [pure_bind]
    exact h.tagAndCar closed _ (if_neg hf) rfl

theorem enterAs (lead : Lead) (type : TypeCode) :
    AgreeWithin n (do resume e (← enterAs e lead stack type)) (do
      resume e ⟨stack, .done (← contentAs e nested cdr lead type)⟩) := by
  have hlen := compositional_advances.length
  unfold Item.enterAs
  split
  · exact .of_eq rfl
  · exact .of_eq rfl
  · simp only [contentAs, bind_assoc, pure_bind]
    exact .of_eq rfl
  · simp only [contentAs, bind_assoc, pure_bind]
    refine AgreeWithin.bind (k := 0) (advances_readChars _) fun content ↦ ?_
    unfold dropAttributes
    split
    · simp only [bind_assoc, pure_bind]
      refine AgreeWithin.bind (k := 0) (advances_note _) fun _ ↦ (h.item _).trans (.of_eq ?_)
      simp only [deliver, pure_bind]
    · simp only [pure_bind]
      exact .of_eq rfl
  · rw [contentAs]
    split
    · exact .of_eq rfl
    · simp only [bind_assoc, pure_bind]
      refine (h.item _).trans (.of_eq ?_)
      simp only [deliver, bind_assoc, pure_bind]
  · simp only [contentAs, bind_assoc, pure_bind]
    refine AgreeWithin.bind (k := 0) hlen fun k ↦ (h.awaitElements lead [] k).trans ?_
    refine AgreeWithin.bind (k := 0) (compositional_times compositional_advances h.advances k)
      fun vs ↦ h.close lead _
  · simp only [contentAs, bind_assoc, pure_bind]
    refine AgreeWithin.bind (k := 0) hlen fun k ↦ (h.awaitStrings lead [] k).trans ?_
    refine AgreeWithin.bind (k := 0) (compositional_times compositional_advances
      (compositional_string compositional_advances h.advances) k) fun vs ↦ h.close lead _
  · simp only [contentAs]
    cases hr : atomsReader? type with
    | some reader =>
      simp only [bind_assoc, pure_bind]
      exact AgreeWithin.bind (k := 0) (compositional_advances.atomsReader hr) fun atoms ↦
        h.close lead (.atoms atoms)
    | none =>
      cases type.pairKind? with
      | some kind =>
        simp only [pure_bind]
        exact h.cell lead kind []
      | none =>
        simp only [EStateM.throw_bind]
        exact .of_eq rfl

theorem enter (lead : Lead) :
    AgreeWithin n (do resume e (← enter e lead stack)) (do
      resume e ⟨stack, .done (← content e nested cdr stack.height lead)⟩) := by
  unfold Item.enter content
  cases TypeCode.ofCode? lead.flags.typeByte with
  | none =>
    simp only [EStateM.throw_bind]
    exact .of_eq rfl
  | some type =>
    by_cases hd : e.maxDepth ≤ stack.height
    · simp only [if_pos hd, EStateM.throw_bind]
      exact .of_eq rfl
    · simp only [if_neg hd, bind_assoc]
      exact AgreeWithin.bind (k := 0) advances_get fun _ ↦
        AgreeWithin.bind (k := 0) (advances_note _) fun _ ↦ h.enterAs lead type

end Follows

theorem readLead_exhausted {s : Progress} (h : s.cursor.remaining = 0) :
    readLead s = .error (.truncated 4 0) s := by
  obtain ⟨⟨position, rest⟩, table, log⟩ := s
  cases rest with
  | nil => rfl
  | cons b bytes => cases h

theorem resume_agrees (n : Nat) :
    (∀ stack, AgreeWithin n (resume e ⟨stack, .item⟩) (do
      resume e ⟨stack, .done (← item e n stack.height)⟩)) ∧
    ∀ closed stack, AgreeWithin n (do resume e (← follow closed stack)) (do
      resume e ⟨stack, .done (linkAll closed (← rest e n stack.height))⟩) := by
  induction n with
  | zero =>
    constructor
    · intro stack s hs
      rw [resume_item, EStateM.bind_of_error (readLead_exhausted (Nat.le_zero.mp hs)), item,
        EStateM.throw_bind]
      rfl
    · intro closed stack s hs
      rw [follow, bind_assoc, EStateM.bind_of_error (readLead_exhausted (Nat.le_zero.mp hs)), rest,
        EStateM.throw_bind]
      rfl
  | succ n ih =>
    -- A finished item goes to the frame on top, so the hypothesis is used below a further frame.
    have hf (stack : Stack) :
        Follows e n stack (item e n (stack.height + 1)) (rest e n stack.height) := by
      refine ⟨(advances_item_rest e n).1 _, fun frame ↦ ?_, fun closed ↦ ih.2 closed stack⟩
      simpa only [resume_done_push, Stack.height_push] using ih.1 (stack.push frame)
    constructor
    · intro stack
      rw [resume_item, item, bind_assoc]
      exact (AgreeWithin.bind advances_readLead fun lead ↦ (hf stack).enter lead).mono (by omega)
    · intro closed stack
      rw [follow, rest, bind_assoc, bind_assoc]
      refine (AgreeWithin.bind advances_readLead fun lead ↦ ?_).mono (Nat.le_add_right _ 3)
      cases (TypeCode.ofCode? lead.flags.typeByte).bind TypeCode.pairKind? with
      | some kind =>
        simp only [pure_bind]
        exact (hf stack).cell lead kind closed
      | none =>
        have h := (hf (stack.push (.tail closed))).enter lead
        simp only [resume_done_push, deliver, pure_bind, Stack.height_push] at h
        simpa only [resume_itemBehind, pure_bind] using h

theorem read_eq_item {n : Nat} {s : Progress} (h : s.cursor.remaining ≤ n) :
    read e s = item e n 0 s := by
  have hr := (resume_agrees e n).1 .empty s h
  simp only [resume_done_empty, bind_pure] at hr
  exact hr

/-- With at most `n` bytes ahead the machine does what a reading does that has every property of
the elementary readings. -/
theorem exists_read_eq {P : ∀ {α : Type}, Reading α → Prop} (hP : Compositional P)
    (hlimit : ∀ k, P (throw (.depthLimit k) : Reading Value)) (n : Nat) :
    ∃ r : Reading Value, P r ∧ ∀ s, s.cursor.remaining ≤ n → read e s = r s :=
  ⟨item e n 0, (compositional_item_rest e hP hlimit n).1 0, fun _ ↦ read_eq_item e⟩

def descend : Reading Value := fun s ↦ item e s.cursor.remaining 0 s

/-- The machine and the recursive descent end in the same value or error with the same
cursor, table and log. -/
theorem read_eq_descend (s : Progress) : read e s = descend e s :=
  read_eq_item e (Nat.le_refl _)

/-- A descent that never goes deeper behind a car, not even for the item that ends a
chain. -/
def shallowItem : Nat → Nat → Reading Value
  | 0, _ => throw (.truncated 4 0)
  | n + 1, depth => do
    let lead ← readLead
    content e (shallowItem n (depth + 1)) (shallowItem n depth) depth lead

def descendShallow : Reading Value := fun s ↦ shallowItem e s.cursor.remaining 0 s

def dottedPair : List UInt8 :=
  [0, 0, 0, 2, 0, 0, 0, 254, 0, 0, 0, 19, 0, 0, 0, 1, 0, 0, 0, 254]

/-- The list that ends the chain is itself nested in it, so its element is too deep for a
limit of two. -/
theorem read_ne_descendShallow :
    (∃ t, read ⟨2, 0⟩ (.start dottedPair []) = .error (.depthLimit 2) t) ∧
    ∃ t, descendShallow ⟨2, 0⟩ (.start dottedPair []) =
      .ok (.pair ⟨0, 0⟩ .list none .null (.list ⟨0, 8⟩ [.null] [] false) [] false) t := by
  constructor
  · rw [read_eq_item _ (Nat.le_refl _)]
    exact ⟨_, rfl⟩
  · exact ⟨_, rfl⟩

end Rds.Descent
