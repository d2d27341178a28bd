import Rds.Proofs.Account.Session
import Rds.Proofs.Reserved

namespace Rds

namespace Item

variable {α β : Type} {e : Setting} {c d : Config} {s t : Progress} {lead : Lead} {stack : Stack}
  {what : Unsupported}

def Plain (r : Reading α) : Prop := ∀ s what t, r s ≠ .error (.unsupported what) t

theorem Plain.bind {r : Reading α} {f : α → Reading β} (hr : Plain r) (hf : ∀ a, Plain (f a)) :
    Plain (r >>= f) := by
  intro s what t
  cases hs : r s with
  | ok a u =>
    rw [EStateM.bind_of_ok hs]
    exact hf a u what t
  | error err u =>
    rw [EStateM.bind_of_error hs]
    rintro ⟨⟩
    exact hr s what t hs

theorem plain_note (event : Event) : Plain (note event) := fun _ _ _ h ↦ by cases h

theorem composed_plain : Composed Plain where
  pure a s _ _ h := by cases h
  fail h s what t := by
    rintro ⟨⟩
    exact h
  bind := Plain.bind
  position hf s := hf s.cursor.position s
  table hf s := hf s.table s
  bytes n s what t := by
    rcases Nat.lt_or_ge s.cursor.remaining n with hn | hn
    · rw [onCursor, Cursor.bytes_error hn]
      rintro ⟨⟩
    · rw [onCursor, Cursor.bytes_ok hn]
      rintro ⟨⟩
  warn event _ := plain_note event
  register name s _ _ h := by cases h

/-- Why an item cannot be read whose type is not implemented. An unknown type is refused whatever
the depth is, and a known one behind the limit of depth. -/
def refusal (maxDepth height : Nat) (code : UInt8) : Error :=
  if TypeCode.ofCode? code ≠ none ∧ maxDepth ≤ height then .depthLimit maxDepth
  else .unsupported (.type code)

/-- A reading ends in an error. Since a certain progress it has added nothing but events, among
which no symbol is registered. -/
def Refused (o : Locality.Outcome α) (err : Error) (t : Progress) : Prop :=
  ∃ events, (∀ name n, Event.registered name n ∉ events) ∧
    o = .error err { t with log := events ++ t.log }

theorem Refused.bind {r : Reading α} {err : Error} (h : Refused (r s) err t)
    (f : α → Reading β) : Refused ((r >>= f) s) err t := by
  obtain ⟨events, hevents, h⟩ := h
  exact ⟨events, hevents, EStateM.bind_of_error h f⟩

theorem refused_enter (h : lead.flags.typeByte ∉ implemented) (s : Progress) :
    Refused (enter e lead stack s) (refusal e.maxDepth stack.height lead.flags.typeByte) s := by
  unfold enter refusal
  cases ht : TypeCode.ofCode? lead.flags.typeByte with
  | none => exact ⟨[], fun _ _ ↦ List.not_mem_nil, rfl⟩
  | some type =>
    dsimp only
    by_cases hd : e.maxDepth ≤ stack.height
    · rw [if_pos hd, if_pos ⟨nofun, hd⟩]
      exact ⟨[], fun _ _ ↦ List.not_mem_nil, rfl⟩
    · rw [if_neg hd, if_neg fun hand ↦ hd hand.2]
      rw [← TypeCode.code_of_ofCode? ht] at h
      refine ⟨[.item type s.cursor.position (stack.height + 1)], by simp, ?_⟩
      rw [enterAs_of_not_implemented e lead stack h]
      rfl

theorem refusal_of_enter (h : enter e lead stack s = .error (.unsupported what) t) :
    lead.flags.typeByte ∉ implemented ∧
      (TypeCode.ofCode? lead.flags.typeByte ≠ none → stack.height < e.maxDepth) := by
  have hknown : implemented.all fun code ↦ (TypeCode.ofCode? code).isSome := by decide
  unfold enter at h
  cases ht : TypeCode.ofCode? lead.flags.typeByte with
  | none =>
    refine ⟨fun hmem ↦ ?_, fun hne ↦ absurd rfl hne⟩
    have hsome := List.all_eq_true.mp hknown _ hmem
    rw [ht] at hsome
    cases hsome
  | some type =>
    rw [ht] at h
    dsimp only at h
    split at h
    · cases h
    · next hd =>
      refine ⟨fun hmem ↦ ?_, fun _ ↦ Nat.lt_of_not_le hd⟩
      rw [← TypeCode.code_of_ofCode? ht] at hmem
      have hplain := composed_plain.position (f := fun p ↦
          note (.item type p (stack.height + 1)) >>= fun _ ↦ enterAs e lead stack type)
        fun _ ↦ composed_plain.bind (plain_note _) fun _ ↦
          composed_enterAs e composed_plain lead stack hmem
      exact hplain s what t h

/-- A flag word that a run reaches, with the number of frames that are open where its item begins
and the progress directly behind it. -/
structure Sighting where
  lead : Lead
  height : Nat
  behind : Progress

/-- The flag words that the run from a configuration reaches. The word behind a car is read ahead.
The frame of the cell then waits for the cdr, so as many frames are open there. -/
inductive Reaches (e : Setting) : Config → Progress → Sighting → Prop
  | here {c : Config} {s t : Progress} {lead : Lead} {f : Lead → Reading (Value ⊕ Config)} :
      onLead? e c = some f → readLead s = .ok lead t → Reaches e c s ⟨lead, c.stack.height, t⟩
  | later {c d : Config} {s t : Progress} {x : Sighting} :
      step e c s = .ok (.inr d) t → Reaches e d t x → Reaches e c s x

namespace Sighting

/-- The type of the item cannot be read. -/
def Unimplemented (x : Sighting) : Prop := x.lead.flags.typeByte ∉ implemented

/-- The type is unknown, or the depth does not keep its item from being begun. -/
def Admitted (x : Sighting) (maxDepth : Nat) : Prop :=
  TypeCode.ofCode? x.lead.flags.typeByte ≠ none → x.height < maxDepth

theorem refusal_eq_unsupported {x : Sighting} {maxDepth : Nat} (h : x.Admitted maxDepth) :
    refusal maxDepth x.height x.lead.flags.typeByte =
      .unsupported (.type x.lead.flags.typeByte) :=
  if_neg fun hand ↦ Nat.not_le_of_lt (h hand.1) hand.2

end Sighting

theorem refused_run {err : Error} (h : Refused (step e c s) err t) :
    Refused (run e c s) err t := by
  obtain ⟨events, hevents, h⟩ := h
  exact ⟨events, hevents, run_of_error h⟩

theorem step_itemBehind (e : Setting) (stack : Stack) (lead : Lead) :
    step e ⟨stack, .itemBehind lead⟩ = enter e lead stack >>= fun d ↦ pure (.inr d) :=
  map_eq_pure_bind _ _

theorem step_done_of_none {v : Value} (h : stack.pop? = none) :
    step e ⟨stack, .done v⟩ = pure (.inl v) := by
  simp only [step, h]

theorem step_done {v : Value} {frame : Frame} {rest : Stack}
    (h : stack.pop? = some (frame, rest)) :
    step e ⟨stack, .done v⟩ = deliver e v rest frame >>= fun d ↦ pure (.inr d) := by
  simp only [step, h, map_eq_pure_bind]

theorem behindCar_of_not_implemented (h : lead.flags.typeByte ∉ implemented)
    (closed : List Cell) (stack : Stack) :
    behindCar closed stack lead = ⟨stack.push (.tail closed), .itemBehind lead⟩ := by
  have hnone : (TypeCode.ofCode? lead.flags.typeByte).bind TypeCode.pairKind? = none := by
    cases ht : TypeCode.ofCode? lead.flags.typeByte with
    | none => rfl
    | some type =>
      rw [← TypeCode.code_of_ofCode? ht] at h
      cases type <;> first | rfl | exact absurd (by decide) h
  rw [behindCar, hnone]

theorem onLead?_cases {f : Lead → Reading (Value ⊕ Config)} (h : onLead? e c = some f) :
    (c.next = .item ∧ f = fun lead ↦ enter e lead c.stack >>= fun d ↦ pure (.inr d)) ∨
      ∃ closed stack, c.stack.height = stack.height + 1 ∧
        f = fun lead ↦ pure (.inr (behindCar closed stack lead)) := by
  obtain ⟨stack, next⟩ := c
  cases next with
  | item =>
    cases h
    exact .inl ⟨rfl, funext fun lead ↦ map_eq_pure_bind _ _⟩
  | itemBehind lead => cases h
  | done v =>
    rw [onLead?] at h
    dsimp only at h
    split at h
    · next hpop =>
      cases h
      exact .inr ⟨_, _, Stack.pop?_height hpop, rfl⟩
    · cases h

theorem refused_here {f : Lead → Reading (Value ⊕ Config)} (hf : onLead? e c = some f)
    (hread : readLead s = .ok lead t) (h : lead.flags.typeByte ∉ implemented) :
    Refused (run e c s) (refusal e.maxDepth c.stack.height lead.flags.typeByte) t := by
  have hstep : step e c s = f lead t := by
    rw [step_eq_readLead e hf, EStateM.bind_of_ok hread]
  obtain ⟨-, rfl⟩ | ⟨closed, stack, hheight, rfl⟩ := onLead?_cases hf
  · refine refused_run ?_
    rw [hstep]
    exact (refused_enter h t).bind _
  · have hbehind : step e c s = .ok (.inr ⟨stack.push (.tail closed), .itemBehind lead⟩) t := by
      rw [hstep, ← behindCar_of_not_implemented h]
      rfl
    rw [run_of_inr hbehind, hheight]
    refine refused_run ?_
    rw [step_itemBehind]
    exact (refused_enter h t).bind _

theorem Reaches.refused {x : Sighting} (h : Reaches e c s x) (hx : x.Unimplemented) :
    Refused (run e c s) (refusal e.maxDepth x.height x.lead.flags.typeByte) x.behind := by
  induction h with
  | here hf hread => exact refused_here hf hread hx
  | later hstep _ ih =>
    rw [run_of_inr hstep]
    exact ih hx

theorem Reaches.bytes {x : Sighting} (h : Reaches e c s x) :
    ∃ front, s.cursor.rest = front ++ (x.lead.flags.bytes ++ x.behind.cursor.rest) ∧
      x.lead.offset = s.cursor.position + front.length ∧
      x.behind.cursor.position = x.lead.offset + 4 := by
  induction h with
  | @here c s t lead f hf hread =>
    obtain ⟨hoffset, hm⟩ := Account.readLead_eq_ok hread
    refine ⟨[], hm.rest, hoffset, ?_⟩
    rw [hm.position, FlagWord.length_bytes, hoffset]
  | @later c d s t x hstep _ ih =>
    obtain ⟨front, hconsumes⟩ := local_step e c s
    obtain ⟨back, hrest, hoffset, hposition⟩ := ih
    have hfront := hconsumes.rest
    have hmoved := hconsumes.position
    rw [hstep] at hfront hmoved
    refine ⟨front ++ back, ?_, ?_, hposition⟩
    · rw [hfront]
      change front ++ t.cursor.rest = _
      rw [hrest, List.append_assoc]
    · rw [hoffset, List.length_append, ← Nat.add_assoc]
      exact congrArg (· + back.length) hmoved

/-- A configuration that has no flag word in hand, and one frame more than `height` at most. -/
structure Settled (height : Nat) (c : Config) : Prop where
  next_ne : ∀ lead, c.next ≠ .itemBehind lead
  height_le : c.stack.height ≤ height + 1

theorem settled_done (stack : Stack) (v : Value) : Settled stack.height ⟨stack, .done v⟩ :=
  ⟨fun _ ↦ nofun, Nat.le_succ _⟩

theorem settled_push (stack : Stack) (frame : Frame) :
    Settled stack.height ⟨stack.push frame, .item⟩ :=
  ⟨fun _ ↦ nofun, Nat.le_refl _⟩

theorem settled_close (lead : Lead) (payload : Payload) (stack : Stack) :
    Settled stack.height (close e lead payload stack) := by
  unfold close
  split
  · exact settled_push _ _
  · exact settled_done _ _

theorem settled_awaitNext (frame : Nat → Frame) (lead : Lead) (payload : Payload) (stack : Stack)
    (n : Nat) : Settled stack.height (awaitNext e frame lead payload stack n) := by
  cases n with
  | zero => exact settled_close _ _ _
  | succ n => exact settled_push _ _

def Settles (height : Nat) (r : Reading Config) : Prop := ∀ s d t, r s = .ok d t → Settled height d

theorem settles_pure {height : Nat} (h : Settled height c) : Settles height (pure c) := by
  rintro s _ _ ⟨⟩
  exact h

theorem settles_throw (height : Nat) (err : Error) : Settles height (throw err) := nofun

theorem settles_bind {height : Nat} (r : Reading α) {f : α → Reading Config}
    (hf : ∀ a, Settles height (f a)) : Settles height (r >>= f) := by
  intro s d t h
  obtain ⟨a, u, -, h⟩ := EStateM.bind_eq_ok.mp h
  exact hf a u d t h

theorem settles_enterAs (lead : Lead) (stack : Stack) (type : TypeCode) :
    Settles stack.height (enterAs e lead stack type) := by
  have hitem (frame : Frame) := settles_pure (settled_push stack frame)
  have hdone (v : Value) := settles_pure (settled_done stack v)
  unfold enterAs
  split
  · exact hdone _
  · exact hdone _
  · exact settles_bind _ fun _ ↦ hdone _
  · refine settles_bind _ fun content ↦ ?_
    split
    · exact settles_bind _ fun _ ↦ hitem _
    · exact hdone _
  · split
    · exact settles_throw _ _
    · exact hitem _
  · exact settles_bind _ fun _ ↦ settles_pure (settled_awaitNext _ _ _ _ _)
  · exact settles_bind _ fun _ ↦ settles_pure (settled_awaitNext _ _ _ _ _)
  · split
    · exact settles_bind _ fun _ ↦ settles_pure (settled_close _ _ _)
    · exact hitem _
    · exact settles_throw _ _

theorem settles_enter (lead : Lead) (stack : Stack) :
    Settles stack.height (enter e lead stack) := by
  unfold enter
  split
  · exact settles_throw _ _
  · split
    · exact settles_throw _ _
    · exact settles_bind _ fun _ ↦ settles_bind _ fun _ ↦ settles_enterAs _ _ _

/-- A finished item is followed by a flag word in hand only where a car is complete. -/
theorem settles_deliver {v : Value} {frame : Frame} {rest : Stack}
    (hpop : stack.pop? = some (frame, rest)) (h : onLead? e ⟨stack, .done v⟩ = none) :
    Settles rest.height (deliver e v rest frame) := by
  have hitem (frame : Frame) := settles_pure (settled_push rest frame)
  have hdone (v : Value) := settles_pure (settled_done rest v)
  cases frame with
  | list lead done more => exact settles_pure (settled_awaitNext _ _ _ _ _)
  | strings lead done more =>
    cases v with
    | char s => exact settles_pure (settled_awaitNext _ _ _ _ _)
    | _ => exact settles_throw _ _
  | attributes lead payload => exact settles_bind _ fun _ ↦ hdone _
  | charAttributes content => exact hdone _
  | symbolName => exact settles_bind _ fun _ ↦ hdone _
  | cell closed current =>
    obtain ⟨kind, lead, awaits, attributes, tag⟩ := current
    cases awaits with
    | attributes => exact settles_bind _ fun _ ↦ hitem _
    | tag => exact settles_bind _ fun _ ↦ hitem _
    | car => simp only [onLead?, hpop, reduceCtorEq] at h
  | tail closed => exact hdone _

/-- A flag word in hand was read by the step before, with as many frames open as now. -/
theorem read_of_itemBehind (h : step e c s = .ok (.inr d) t) (hd : d.next = .itemBehind lead) :
    (∃ f, onLead? e c = some f) ∧ readLead s = .ok lead t ∧ d.stack.height = c.stack.height := by
  cases hf : onLead? e c with
  | some f =>
    rw [step_eq_readLead e hf] at h
    obtain ⟨next, u, hread, h⟩ := EStateM.bind_eq_ok.mp h
    obtain ⟨-, rfl⟩ | ⟨closed, stack, hheight, rfl⟩ := onLead?_cases hf
    · obtain ⟨d', u', henter, h⟩ := EStateM.bind_eq_ok.mp h
      cases h
      exact absurd hd ((settles_enter _ _ _ _ _ henter).next_ne lead)
    · cases h
      rw [behindCar] at hd ⊢
      split at hd
      · cases hd
      · cases hd
        exact ⟨⟨_, rfl⟩, hread, hheight.symm⟩
  | none =>
    obtain ⟨stack, next⟩ := c
    cases next with
    | item => cases hf
    | itemBehind lead' =>
      rw [step_itemBehind] at h
      obtain ⟨d', u', henter, h⟩ := EStateM.bind_eq_ok.mp h
      cases h
      exact absurd hd ((settles_enter _ _ _ _ _ henter).next_ne lead)
    | done v =>
      cases hpop : stack.pop? with
      | none =>
        rw [step_done_of_none hpop] at h
        cases h
      | some top =>
        obtain ⟨frame, rest⟩ := top
        rw [step_done hpop] at h
        obtain ⟨d', u', hdeliver, h⟩ := EStateM.bind_eq_ok.mp h
        cases h
        exact absurd hd ((settles_deliver hpop hf _ _ _ hdeliver).next_ne lead)

theorem lead_of_step (h : step e c s = .error (.unsupported what) t) :
    ∃ lead u, (c.next = .itemBehind lead ∧ s = u ∨
        ∃ f, onLead? e c = some f ∧ readLead s = .ok lead u) ∧
      Sighting.Unimplemented ⟨lead, c.stack.height, u⟩ ∧
      Sighting.Admitted ⟨lead, c.stack.height, u⟩ e.maxDepth := by
  have henter {stack : Stack} {lead : Lead} {u : Progress}
      (h : (enter e lead stack >>= fun d ↦ (pure (.inr d) : Reading (Value ⊕ Config))) u =
        .error (.unsupported what) t) :
      Sighting.Unimplemented ⟨lead, stack.height, u⟩ ∧
        Sighting.Admitted ⟨lead, stack.height, u⟩ e.maxDepth := by
    cases hu : enter e lead stack u with
    | ok d v =>
      rw [EStateM.bind_of_ok hu] at h
      cases h
    | error err v =>
      rw [EStateM.bind_of_error hu] at h
      cases h
      exact refusal_of_enter hu
  cases hf : onLead? e c with
  | some f =>
    rw [step_eq_readLead e hf] at h
    cases hread : readLead s with
    | error err u =>
      rw [EStateM.bind_of_error hread] at h
      cases h
      exact absurd hread (composed_plain.readLead s what t)
    | ok lead u =>
      rw [EStateM.bind_of_ok hread] at h
      obtain ⟨-, rfl⟩ | ⟨closed, stack, -, rfl⟩ := onLead?_cases hf
      · exact ⟨lead, u, .inr ⟨_, rfl, rfl⟩, henter h⟩
      · cases h
  | none =>
    obtain ⟨stack, next⟩ := c
    cases next with
    | item => cases hf
    | itemBehind lead =>
      rw [step_itemBehind] at h
      exact ⟨lead, s, .inl ⟨rfl, rfl⟩, henter h⟩
    | done v =>
      cases hpop : stack.pop? with
      | none =>
        rw [step_done_of_none hpop] at h
        cases h
      | some top =>
        obtain ⟨frame, rest⟩ := top
        rw [step_done hpop] at h
        have hplain := (composed_deliver e composed_plain v rest frame).bind fun d ↦
          composed_plain.pure (Sum.inr d : Value ⊕ Config)
        exact absurd h (hplain s what t)

theorem code_of_step {code : UInt8} (h : step e c s = .error (.unsupported (.type code)) t) :
    code ∉ implemented := by
  obtain ⟨lead, u, hlead, hun, had⟩ := lead_of_step h
  have hrefused : Refused (run e c s) (refusal e.maxDepth c.stack.height lead.flags.typeByte) u := by
    obtain ⟨hnext, rfl⟩ | ⟨f, hf, hread⟩ := hlead
    · obtain ⟨stack, next⟩ := c
      obtain rfl := hnext
      refine refused_run ?_
      rw [step_itemBehind]
      exact (refused_enter hun s).bind _
    · exact refused_here hf hread hun
  obtain ⟨events, -, he⟩ := hrefused
  rw [run_of_error h, Sighting.refusal_eq_unsupported had] at he
  cases he
  exact hun

theorem lead_of_run (h : run e c s = .error (.unsupported what) t) :
    (∃ x, Reaches e c s x ∧ x.Unimplemented ∧ x.Admitted e.maxDepth) ∨
      ∃ lead, c.next = .itemBehind lead ∧
        Sighting.Unimplemented ⟨lead, c.stack.height, s⟩ ∧
        Sighting.Admitted ⟨lead, c.stack.height, s⟩ e.maxDepth := by
  fun_induction run e c s with
  | case1 c s v u hstep => cases h
  | case2 c s d u hstep ih =>
    obtain ⟨x, hx, hrefused⟩ | ⟨lead, hnext, hun, had⟩ := ih h
    · exact .inl ⟨x, .later hstep hx, hrefused⟩
    · obtain ⟨⟨f, hf⟩, hread, hheight⟩ := read_of_itemBehind hstep hnext
      rw [hheight] at had
      exact .inl ⟨_, .here hf hread, hun, had⟩
  | case3 c s err u hstep =>
    cases h
    obtain ⟨lead, v, hlead, hrefused⟩ := lead_of_step hstep
    obtain ⟨hnext, rfl⟩ | ⟨f, hf, hread⟩ := hlead
    · exact .inr ⟨lead, hnext, hrefused⟩
    · exact .inl ⟨_, .here hf hread, hrefused⟩

end Item

namespace Session

open Item

/-- The flag words that a session reaches when it reads its next item. -/
def Reaches (s : Session) (x : Sighting) : Prop :=
  Item.Reaches s.setting ⟨.empty, .item⟩ s.progress x

/-- Reading an item fails for a type that cannot be read just if it reaches the flag word of such
a type and the depth does not forbid the item. Nothing is read behind such a word, and no symbol is
registered. -/
theorem readItem_unsupported (s : Session) :
    ((∃ what t, readItem s = .error (.unsupported what) t) ↔
      ∃ x, s.Reaches x ∧ x.Unimplemented ∧ x.Admitted s.options.maxDepth) ∧
    ∀ x, s.Reaches x → x.Unimplemented →
      (∃ front, s.progress.cursor.rest = front ++ (x.lead.flags.bytes ++ x.behind.cursor.rest) ∧
        x.lead.offset = s.position + front.length ∧
        x.behind.cursor.position = x.lead.offset + 4) ∧
      ∃ events, (∀ name n, Event.registered name n ∉ events) ∧
        readItem s = .error
          (if TypeCode.ofCode? x.lead.flags.typeByte ≠ none ∧ s.options.maxDepth ≤ x.height then
            .depthLimit s.options.maxDepth
          else .unsupported (.type x.lead.flags.typeByte))
          { s with progress := { x.behind with log := events ++ x.behind.log } } := by
  have hread : readItem s = onProgress (Item.read s.setting) s :=
    EStateM.bind_of_ok Locality.get_session _
  have hrefused (x : Sighting) (hx : s.Reaches x) (hun : x.Unimplemented) :
      ∃ events, (∀ name n, Event.registered name n ∉ events) ∧
        readItem s = .error (refusal s.options.maxDepth x.height x.lead.flags.typeByte)
          { s with progress := { x.behind with log := events ++ x.behind.log } } := by
    obtain ⟨events, hevents, hrun⟩ := Reaches.refused hx hun
    exact ⟨events, hevents, hread.trans (Locality.onProgress_of_error hrun)⟩
  refine ⟨⟨?_, ?_⟩, fun x hx hun ↦ ⟨hx.bytes, hrefused x hx hun⟩⟩
  · rintro ⟨what, t, h⟩
    rw [hread, onProgress] at h
    split at h
    · cases h
    · next hrun =>
      cases h
      obtain hx | ⟨lead, hnext, -⟩ := lead_of_run hrun
      · exact hx
      · cases hnext
  · rintro ⟨x, hx, hun, had⟩
    obtain ⟨events, -, h⟩ := hrefused x hx hun
    rw [x.refusal_eq_unsupported had] at h
    exact ⟨_, _, h⟩

def inFrontOf (maxDepth : Nat) (bytes : List UInt8) : Session :=
  ⟨⟨maxDepth, true, false⟩, 0, none, .start bytes []⟩

def environmentCdr : List UInt8 := [0, 0, 0, 2, 0, 0, 0, 254, 0, 0, 0, 4]

def environmentElement : List UInt8 := [0, 0, 0, 19, 0, 0, 0, 1, 0, 0, 0, 4]

def environmentWord (log : Log) : Sighting := ⟨⟨8, ⟨4⟩⟩, 1, ⟨⟨12, []⟩, .empty, log⟩⟩

theorem readItem_environment :
    (∃ x, (inFrontOf 2 environmentCdr).Reaches x ∧ x.Unimplemented ∧ x.Admitted 2 ∧
      ∃ t, readItem (inFrontOf 2 environmentCdr) = .error (.unsupported (.type 4)) t ∧
        t.position = 12 ∧ t.references = 0) ∧
    ∃ x, (inFrontOf 1 environmentElement).Reaches x ∧ x.Unimplemented ∧ ¬ x.Admitted 1 ∧
      ∃ t, readItem (inFrontOf 1 environmentElement) = .error (.depthLimit 1) t ∧
        t.position = 12 ∧ t.references = 0 := by
  have hcdr : (inFrontOf 2 environmentCdr).Reaches
      (environmentWord [.item .nilValue 8 2, .item .pairlist 4 1]) := by
    refine .later rfl ?_
    refine .later rfl ?_
    exact .here rfl rfl
  have helement : (inFrontOf 1 environmentElement).Reaches
      (environmentWord [.item .list 4 1]) := by
    refine .later rfl ?_
    exact .here rfl rfl
  have hcode : (⟨4⟩ : FlagWord).typeByte ∉ implemented := by decide
  have hknown : TypeCode.ofCode? (⟨4⟩ : FlagWord).typeByte ≠ none := by decide
  have hun (log : Log) : (environmentWord log).Unimplemented := hcode
  have hadmitted (log : Log) : (environmentWord log).Admitted 2 := fun _ ↦ Nat.lt_succ_self 1
  have hlimit (log : Log) : ¬ (environmentWord log).Admitted 1 :=
    fun h ↦ Nat.lt_irrefl 1 (h hknown)
  refine ⟨⟨_, hcdr, hun _, hadmitted _, ?_⟩, ⟨_, helement, hun _, hlimit _, ?_⟩⟩
  · obtain ⟨-, events, -, h⟩ := (readItem_unsupported _).2 _ hcdr (hun _)
    exact ⟨_, h, rfl, rfl⟩
  · obtain ⟨-, events, -, h⟩ := (readItem_unsupported _).2 _ helement (hun _)
    exact ⟨_, h, rfl, rfl⟩

end Session

end Rds
