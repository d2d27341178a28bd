import Mathlib.Data.List.Forall2
import Rds.Proofs.Locality

namespace Rds

namespace FlagWord

variable {w w' : FlagWord} {i : Nat}

def bit (w : FlagWord) (i : Nat) : Bool := w.raw.toBitVec.getLsbD i

/-- The bits of a flag word that mean nothing. All bits of a reference mean something. -/
def Reserved (w : FlagWord) (i : Nat) : Prop :=
  w.typeByte ≠ TypeCode.reference.code ∧
    (11 ≤ i ∨
      i = 10 ∧ (TypeCode.ofCode? w.typeByte).bind TypeCode.pairKind? = none ∨
      i = 9 ∧ w.typeByte ∈ [TypeCode.nil.code, TypeCode.nilValue.code] ∨
      i = 8 ∧ w.typeByte ∈ [TypeCode.nil.code, TypeCode.nilValue.code, TypeCode.symbol.code,
        TypeCode.char.code])

instance (w : FlagWord) (i : Nat) : Decidable (w.Reserved i) :=
  inferInstanceAs (Decidable (_ ∧ _))

/-- The second word differs from the first one in reserved bits only. -/
def Alike (w w' : FlagWord) : Prop := ∀ i < 32, ¬ w.Reserved i → w'.bit i = w.bit i

instance (w w' : FlagWord) : Decidable (w.Alike w') :=
  inferInstanceAs (Decidable (∀ i < 32, _))

theorem and_ne_zero_eq {x m : Int32} (hm : m.toBitVec = BitVec.twoPow 32 i) (hi : i < 32) :
    (x &&& m != 0) = x.toBitVec.getLsbD i := by
  have hzero : x &&& m = 0 ↔ x.toBitVec.getLsbD i = false := by
    rw [← Int32.toBitVec_inj, Int32.toBitVec_and, hm, BitVec.and_twoPow]
    cases x.toBitVec.getLsbD i with
    | false => exact iff_of_true rfl rfl
    | true =>
      refine iff_of_false (fun h ↦ ?_) nofun
      have hbit := congrArg (BitVec.getLsbD · i) h
      simp [hi] at hbit
  cases hb : x.toBitVec.getLsbD i with
  | false => rw [hzero.mpr hb]; rfl
  | true =>
    rw [bne_iff_ne]
    intro h
    rw [hzero.mp h] at hb
    cases hb

theorem isObject_eq (w : FlagWord) : w.isObject = w.bit 8 := and_ne_zero_eq rfl (by decide)

theorem hasAttributes_eq (w : FlagWord) : w.hasAttributes = w.bit 9 :=
  and_ne_zero_eq rfl (by decide)

theorem hasTag_eq (w : FlagWord) : w.hasTag = w.bit 10 := and_ne_zero_eq rfl (by decide)

theorem typeByte_of_bits (h : ∀ i < 8, w'.bit i = w.bit i) : w'.typeByte = w.typeByte := by
  apply UInt8.eq_of_toBitVec_eq
  apply BitVec.eq_of_getLsbD_eq
  intro i hi
  have hlow (x : FlagWord) : x.typeByte.toBitVec.getLsbD i = x.bit i := by
    have hset : x.typeByte.toBitVec = x.raw.toBitVec.setWidth 8 := rfl
    rw [hset, BitVec.getLsbD_setWidth, decide_eq_true hi, Bool.true_and, bit]
  rw [hlow, hlow, h i hi]

namespace Alike

variable (h : w.Alike w')

include h

theorem typeByte : w'.typeByte = w.typeByte := by
  refine typeByte_of_bits fun i hi ↦ h i (by omega) fun hr ↦ ?_
  rcases hr.2 with hr | ⟨hr, -⟩ | ⟨hr, -⟩ | ⟨hr, -⟩ <;> omega

theorem eq_of_reference (hw : w.typeByte = TypeCode.reference.code) : w' = w := by
  have hraw : w'.raw = w.raw := by
    apply Int32.toBitVec_inj.mp
    exact BitVec.eq_of_getLsbD_eq fun i hi ↦ h i hi fun hr ↦ hr.1 hw
  cases w
  cases w'
  exact congrArg _ hraw

theorem isObject
    (hw : w.typeByte ∉ [TypeCode.nil.code, TypeCode.nilValue.code, TypeCode.symbol.code,
      TypeCode.char.code]) : w'.isObject = w.isObject := by
  rw [isObject_eq, isObject_eq]
  refine h 8 (by decide) fun hr ↦ ?_
  rcases hr.2 with hr | ⟨hr, -⟩ | ⟨hr, -⟩ | ⟨-, hr⟩
  · omega
  · omega
  · omega
  · exact hw hr

theorem hasAttributes (hw : w.typeByte ∉ [TypeCode.nil.code, TypeCode.nilValue.code]) :
    w'.hasAttributes = w.hasAttributes := by
  rw [hasAttributes_eq, hasAttributes_eq]
  refine h 9 (by decide) fun hr ↦ ?_
  rcases hr.2 with hr | ⟨hr, -⟩ | ⟨-, hr⟩ | ⟨hr, -⟩
  · omega
  · omega
  · exact hw hr
  · omega

theorem hasTag {kind : PairKind}
    (hw : (TypeCode.ofCode? w.typeByte).bind TypeCode.pairKind? = some kind) :
    w'.hasTag = w.hasTag := by
  rw [hasTag_eq, hasTag_eq]
  refine h 10 (by decide) fun hr ↦ ?_
  rcases hr.2 with hr | ⟨-, hr⟩ | ⟨hr, -⟩ | ⟨hr, -⟩
  · omega
  · rw [hw] at hr
    cases hr
  · omega
  · omega

end Alike

end FlagWord

namespace Item

namespace Lead

structure Alike (l l' : Lead) : Prop where
  offset : l'.offset = l.offset
  flags : l.flags.Alike l'.flags

/-- The same to a container that keeps it until it is complete. -/
structure Serves (l l' : Lead) : Prop where
  offset : l'.offset = l.offset
  object : l'.flags.isObject = l.flags.isObject
  attributes : l'.flags.hasAttributes = l.flags.hasAttributes

end Lead

inductive Frame.Mirrors : Frame → Frame → Prop
  | list {lead lead' : Lead} (h : lead.Serves lead') (done : List Value) (more : Nat) :
      Mirrors (.list lead done more) (.list lead' done more)
  | strings {lead lead' : Lead} (h : lead.Serves lead') (done : List Chars) (more : Nat) :
      Mirrors (.strings lead done more) (.strings lead' done more)
  | attributes {lead lead' : Lead} (h : lead.Serves lead') (payload : Payload) :
      Mirrors (.attributes lead payload) (.attributes lead' payload)
  | charAttributes (content : Chars) : Mirrors (.charAttributes content) (.charAttributes content)
  | symbolName : Mirrors .symbolName .symbolName
  | cell {lead lead' : Lead} (h : lead.Serves lead')
      (htag : lead'.flags.hasTag = lead.flags.hasTag) (closed : List Cell) (kind : PairKind)
      (awaits : Part) (attributes : Attributes) (tag : Option Chars) :
      Mirrors (.cell closed ⟨kind, lead, awaits, attributes, tag⟩)
        (.cell closed ⟨kind, lead', awaits, attributes, tag⟩)
  | tail (closed : List Cell) : Mirrors (.tail closed) (.tail closed)

def Stack.Mirrors (s s' : Stack) : Prop := List.Forall₂ Frame.Mirrors s.frames s'.frames

inductive Next.Mirrors : Next → Next → Prop
  | item : Mirrors .item .item
  | itemBehind {lead lead' : Lead} (h : lead.Alike lead') :
      Mirrors (.itemBehind lead) (.itemBehind lead')
  | done (v : Value) : Mirrors (.done v) (.done v)

/-- The two configurations differ in what flag words leave open. -/
structure Config.Mirrors (c c' : Config) : Prop where
  stack : c.stack.Mirrors c'.stack
  next : c.next.Mirrors c'.next

inductive Stepped : Value ⊕ Config → Value ⊕ Config → Prop
  | inl (v : Value) : Stepped (.inl v) (.inl v)
  | inr {c c' : Config} (h : c.Mirrors c') : Stepped (.inr c) (.inr c')

section Lockstep

variable {α β γ δ : Type} {R : α → β → Prop} {Q : γ → δ → Prop}

inductive Paired (R : α → β → Prop) : Locality.Outcome α → Locality.Outcome β → Prop
  | ok {a : α} {b : β} (h : R a b) (t : Progress) : Paired R (.ok a t) (.ok b t)
  | error (err : Error) (t : Progress) : Paired R (.error err t) (.error err t)

/-- From any progress on, the readings do the same up to the relation. -/
def Lockstep (R : α → β → Prop) (r : Reading α) (r' : Reading β) : Prop :=
  ∀ s, Paired R (r s) (r' s)

theorem lockstep_pure {a : α} {b : β} (h : R a b) : Lockstep R (pure a) (pure b) := fun s ↦ .ok h s

theorem lockstep_throw (err : Error) : Lockstep R (throw err) (throw err) := fun s ↦ .error err s

theorem lockstep_refl (r : Reading α) : Lockstep Eq r r := by
  intro s
  cases r s with
  | ok a t => exact .ok rfl t
  | error err t => exact .error err t

theorem Lockstep.bind {r : Reading α} {r' : Reading β} {f : α → Reading γ} {f' : β → Reading δ}
    (h : Lockstep R r r') (hf : ∀ a b, R a b → Lockstep Q (f a) (f' b)) :
    Lockstep Q (r >>= f) (r' >>= f') := by
  intro s
  have hs := h s
  cases ha : r s with
  | ok a t =>
    rw [ha] at hs
    cases hb : r' s with
    | ok b u =>
      rw [hb] at hs
      cases hs with
      | ok hab _ =>
        rw [EStateM.bind_of_ok ha, EStateM.bind_of_ok hb]
        exact hf a b hab t
    | error err u =>
      rw [hb] at hs
      cases hs
  | error err t =>
    rw [ha] at hs
    cases hb : r' s with
    | ok b u =>
      rw [hb] at hs
      cases hs
    | error err' u =>
      rw [hb] at hs
      cases hs
      rw [EStateM.bind_of_error ha, EStateM.bind_of_error hb]
      exact .error err t

theorem Lockstep.after (r : Reading α) {f : α → Reading γ} {f' : α → Reading δ}
    (hf : ∀ a, Lockstep Q (f a) (f' a)) : Lockstep Q (r >>= f) (r >>= f') :=
  (lockstep_refl r).bind fun a _ h ↦ h ▸ hf a

theorem Lockstep.map {r : Reading α} {r' : Reading β} {f : α → γ} {f' : β → δ}
    (h : Lockstep R r r') (hf : ∀ a b, R a b → Q (f a) (f' b)) :
    Lockstep Q (f <$> r) (f' <$> r') := by
  rw [map_eq_pure_bind, map_eq_pure_bind]
  exact h.bind fun a b hab ↦ lockstep_pure (hf a b hab)

end Lockstep

namespace Stack

variable {s s' : Stack} {f f' : Frame}

theorem Mirrors.push (h : s.Mirrors s') (hf : f.Mirrors f') : (s.push f).Mirrors (s'.push f') :=
  .cons hf h

theorem Mirrors.height (h : s.Mirrors s') : s'.height = s.height := by
  rw [s.height_eq, s'.height_eq]
  exact h.length_eq.symm

theorem Mirrors.pop? (h : s.Mirrors s') :
    s.pop? = none ∧ s'.pop? = none ∨
      ∃ f f' t t', s.pop? = some (f, t) ∧ s'.pop? = some (f', t') ∧ f.Mirrors f' ∧
        t.Mirrors t' := by
  obtain ⟨fs, n, hn⟩ := s
  obtain ⟨fs', n', hn'⟩ := s'
  cases h with
  | nil => exact .inl ⟨rfl, rfl⟩
  | cons hf hfs => exact .inr ⟨_, _, _, _, rfl, rfl, hf, hfs⟩

end Stack

section Machine

variable (e : Setting) {lead lead' : Lead} {stack stack' : Stack}

theorem Lead.Serves.origin (h : lead.Serves lead') : e.origin lead' = e.origin lead := by
  rw [Setting.origin, Setting.origin, h.offset]

theorem Lead.Serves.build (h : lead.Serves lead') (attributes : Attributes) (payload : Payload) :
    build e lead' attributes payload = build e lead attributes payload := by
  cases payload with
  | atoms _ | elements _ => simp only [Item.build, h.origin e, h.object]

theorem Lead.Alike.serves (h : lead.Alike lead')
    (hw : lead.flags.typeByte ∉ [TypeCode.nil.code, TypeCode.nilValue.code, TypeCode.symbol.code,
      TypeCode.char.code]) : lead.Serves lead' :=
  ⟨h.offset, h.flags.isObject hw, h.flags.hasAttributes fun hm ↦ hw (by
    simp only [List.mem_cons, List.not_mem_nil, or_false] at hm ⊢
    exact hm.imp_right .inl)⟩

theorem mirrors_done (h : stack.Mirrors stack') (v : Value) :
    Config.Mirrors ⟨stack, .done v⟩ ⟨stack', .done v⟩ := ⟨h, .done v⟩

theorem mirrors_item (h : stack.Mirrors stack') {f f' : Frame} (hf : f.Mirrors f') :
    Config.Mirrors ⟨stack.push f, .item⟩ ⟨stack'.push f', .item⟩ := ⟨h.push hf, .item⟩

theorem mirrors_close (h : lead.Serves lead') (hs : stack.Mirrors stack') (payload : Payload) :
    (close e lead payload stack).Mirrors (close e lead' payload stack') := by
  rw [close, close, h.attributes, h.build e]
  split
  · exact mirrors_item hs (.attributes h payload)
  · exact mirrors_done hs _

theorem mirrors_awaitNext (h : lead.Serves lead') (hs : stack.Mirrors stack')
    {frame frame' : Nat → Frame} (hf : ∀ n, (frame n).Mirrors (frame' n)) (payload : Payload)
    (n : Nat) :
    (awaitNext e frame lead payload stack n).Mirrors
      (awaitNext e frame' lead' payload stack' n) := by
  cases n with
  | zero => exact mirrors_close e h hs _
  | succ n => exact mirrors_item hs (hf n)

theorem mirrors_start (h : lead.Serves lead') (htag : lead'.flags.hasTag = lead.flags.hasTag)
    (hs : stack.Mirrors stack') (closed : List Cell) (kind : PairKind) :
    Config.Mirrors ⟨stack.push (.cell closed (.start kind lead)), .item⟩
      ⟨stack'.push (.cell closed (.start kind lead')), .item⟩ := by
  have hfirst : OpenCell.firstPart lead'.flags = OpenCell.firstPart lead.flags := by
    simp only [OpenCell.firstPart, OpenCell.afterAttributes, h.attributes, htag]
  rw [OpenCell.start, OpenCell.start, hfirst]
  exact mirrors_item hs (.cell h htag closed kind _ [] none)

theorem lockstep_enterAs (h : lead.Alike lead') (hs : stack.Mirrors stack') {type : TypeCode}
    (ht : TypeCode.ofCode? lead.flags.typeByte = some type) :
    Lockstep Config.Mirrors (enterAs e lead stack type) (enterAs e lead' stack' type) := by
  have hcode := TypeCode.code_of_ofCode? ht
  have horigin : e.origin lead' = e.origin lead := by
    rw [Setting.origin, Setting.origin, h.offset]
  unfold enterAs
  split
  · exact lockstep_pure (mirrors_done hs _)
  · exact lockstep_pure (mirrors_done hs _)
  · rw [h.flags.eq_of_reference hcode.symm]
    exact Lockstep.after _ fun v ↦ lockstep_pure (mirrors_done hs v)
  · rw [horigin, h.flags.hasAttributes (hcode ▸ by decide)]
    refine Lockstep.after _ fun content ↦ ?_
    split
    · exact Lockstep.after _ fun _ ↦ lockstep_pure (mirrors_item hs (.charAttributes content))
    · exact lockstep_pure (mirrors_done hs _)
  · rw [h.flags.hasAttributes (hcode ▸ by decide)]
    split
    · exact lockstep_throw _
    · exact lockstep_pure (mirrors_item hs .symbolName)
  · have hserves : lead.Serves lead' := h.serves (hcode ▸ by decide)
    exact Lockstep.after _ fun n ↦
      lockstep_pure (mirrors_awaitNext e hserves hs (.list hserves []) _ n)
  · have hserves : lead.Serves lead' := h.serves (hcode ▸ by decide)
    exact Lockstep.after _ fun n ↦
      lockstep_pure (mirrors_awaitNext e hserves hs (.strings hserves []) _ n)
  · next hnil hnilValue _ hchar hsymbol _ _ =>
    have hserves : lead.Serves lead' := by
      refine h.serves fun hm ↦ ?_
      rw [← hcode] at hm
      simp only [List.mem_cons, List.not_mem_nil, or_false] at hm
      rcases hm with hm | hm | hm | hm
      · exact hnil (TypeCode.code_inj hm)
      · exact hnilValue (TypeCode.code_inj hm)
      · exact hsymbol (TypeCode.code_inj hm)
      · exact hchar (TypeCode.code_inj hm)
    split
    · exact Lockstep.after _ fun _ ↦ lockstep_pure (mirrors_close e hserves hs _)
    · next kind _ hkind =>
      have htag : lead'.flags.hasTag = lead.flags.hasTag :=
        h.flags.hasTag (by rw [ht, Option.bind_some, hkind])
      exact lockstep_pure (mirrors_start hserves htag hs [] kind)
    · rw [h.flags.typeByte]
      exact lockstep_throw _

theorem lockstep_enter (h : lead.Alike lead') (hs : stack.Mirrors stack') :
    Lockstep Config.Mirrors (enter e lead stack) (enter e lead' stack') := by
  unfold enter
  rw [h.flags.typeByte, hs.height]
  cases ht : TypeCode.ofCode? lead.flags.typeByte with
  | none => exact lockstep_throw _
  | some type =>
    dsimp only
    split
    · exact lockstep_throw _
    · exact Lockstep.after _ fun s ↦ Lockstep.after _ fun _ ↦ lockstep_enterAs e h hs ht

def behindCar (closed : List Cell) (stack : Stack) (lead : Lead) : Config :=
  match (TypeCode.ofCode? lead.flags.typeByte).bind TypeCode.pairKind? with
  | some kind => ⟨stack.push (.cell closed (.start kind lead)), .item⟩
  | none => ⟨stack.push (.tail closed), .itemBehind lead⟩

theorem follow_eq (closed : List Cell) (stack : Stack) :
    follow closed stack = readLead >>= fun lead ↦ pure (behindCar closed stack lead) := by
  rw [follow]
  refine congrArg (readLead >>= ·) (funext fun lead ↦ ?_)
  unfold behindCar
  cases (TypeCode.ofCode? lead.flags.typeByte).bind TypeCode.pairKind? <;> rfl

theorem mirrors_behindCar (h : lead.Alike lead') (hs : stack.Mirrors stack')
    (closed : List Cell) :
    (behindCar closed stack lead).Mirrors (behindCar closed stack' lead') := by
  unfold behindCar
  rw [h.flags.typeByte]
  cases hk : (TypeCode.ofCode? lead.flags.typeByte).bind TypeCode.pairKind? with
  | none => exact ⟨hs.push (.tail closed), .itemBehind h⟩
  | some kind =>
    refine mirrors_start (h.serves fun hm ↦ ?_) (h.flags.hasTag hk) hs closed kind
    simp only [List.mem_cons, List.not_mem_nil, or_false] at hm
    rcases hm with hm | hm | hm | hm <;> (rw [hm] at hk; cases hk)

def onLead? (c : Config) : Option (Lead → Reading (Value ⊕ Config)) :=
  match c.next with
  | .item => some fun lead ↦ .inr <$> enter e lead c.stack
  | .itemBehind _ => none
  | .done v =>
    match c.stack.pop? with
    | some (.cell closed ⟨kind, lead, .car, attributes, tag⟩, stack) =>
      some fun next ↦ pure (.inr (behindCar
        (closeCell e ⟨kind, lead, .car, attributes, tag⟩ v :: closed) stack next))
    | _ => none

theorem step_eq_readLead {c : Config} {f : Lead → Reading (Value ⊕ Config)}
    (h : onLead? e c = some f) : step e c = readLead >>= f := by
  obtain ⟨stack, next⟩ := c
  cases next with
  | item =>
    cases h
    rfl
  | itemBehind lead => cases h
  | done v =>
    rw [onLead?] at h
    dsimp only at h
    split at h
    · next closed kind lead attributes tag rest hpop =>
      cases h
      simp only [step, hpop, deliver, deliverPart, follow_eq, map_bind, map_pure]
    · cases h

theorem lockstep_onLead {c c' : Config} (hc : c.Mirrors c')
    {f : Lead → Reading (Value ⊕ Config)} (h : onLead? e c = some f) :
    ∃ f', onLead? e c' = some f' ∧
      ∀ lead lead', lead.Alike lead' → Lockstep Stepped (f lead) (f' lead') := by
  obtain ⟨stack, next⟩ := c
  obtain ⟨stack', next'⟩ := c'
  obtain ⟨hs, hnext⟩ := hc
  cases hnext with
  | item =>
    cases h
    exact ⟨_, rfl, fun _ _ hl ↦ (lockstep_enter e hl hs).map fun _ _ ↦ .inr⟩
  | itemBehind _ => cases h
  | done v =>
    rw [onLead?] at h
    dsimp only at h
    split at h
    · next hpop =>
      cases h
      rcases hs.pop? with ⟨hnone, -⟩ | ⟨f, f', t, t', hsome, hsome', hf, ht⟩
      · cases hpop.symm.trans hnone
      · cases hpop.symm.trans hsome
        cases hf with
        | cell hserves _ closed kind _ attributes tag =>
          rw [onLead?]
          simp only [hsome']
          refine ⟨_, rfl, fun _ _ hl ↦ lockstep_pure (.inr ?_)⟩
          simp only [closeCell, hserves.origin e, hserves.object]
          exact mirrors_behindCar hl ht _
    · cases h

theorem lockstep_deliver {f f' : Frame} (hf : f.Mirrors f') (hs : stack.Mirrors stack')
    (hcar : ∀ closed c, f = .cell closed c → c.awaits ≠ .car) (v : Value) :
    Lockstep Config.Mirrors (deliver e v stack f) (deliver e v stack' f') := by
  cases hf with
  | list h done more => exact lockstep_pure (mirrors_awaitNext e h hs (.list h _) _ more)
  | strings h done more =>
    unfold deliver
    dsimp only
    split
    · exact lockstep_pure (mirrors_awaitNext e h hs (.strings h _) _ more)
    · exact lockstep_throw _
  | attributes h payload =>
    refine Lockstep.after _ fun attributes ↦ lockstep_pure ?_
    rw [h.build e]
    exact mirrors_done hs _
  | charAttributes content => exact lockstep_pure (mirrors_done hs _)
  | symbolName => exact Lockstep.after _ fun w ↦ lockstep_pure (mirrors_done hs w)
  | cell h htag closed kind awaits attributes tag =>
    cases awaits with
    | attributes =>
      refine Lockstep.after _ fun attributes ↦ lockstep_pure ?_
      simp only [OpenCell.afterAttributes, htag]
      exact mirrors_item hs (.cell h htag closed kind _ attributes tag)
    | tag =>
      exact Lockstep.after _ fun tag ↦
        lockstep_pure (mirrors_item hs (.cell h htag closed kind .car attributes tag))
    | car => exact absurd rfl (hcar _ _ rfl)
  | tail closed => exact lockstep_pure (mirrors_done hs _)

theorem lockstep_step {c c' : Config} (hc : c.Mirrors c') (h : onLead? e c = none) :
    Lockstep Stepped (step e c) (step e c') := by
  obtain ⟨stack, next⟩ := c
  obtain ⟨stack', next'⟩ := c'
  obtain ⟨hs, hnext⟩ := hc
  cases hnext with
  | item => cases h
  | itemBehind hl => exact (lockstep_enter e hl hs).map fun _ _ ↦ .inr
  | done v =>
    rcases hs.pop? with ⟨hnone, hnone'⟩ | ⟨f, f', t, t', hsome, hsome', hf, ht⟩
    · simp only [step, hnone, hnone']
      exact lockstep_pure (.inl v)
    · simp only [step, hsome, hsome']
      refine (lockstep_deliver e hf ht ?_ v).map fun _ _ ↦ .inr
      rintro closed ⟨kind, lead, awaits, attributes, tag⟩ rfl rfl
      simp only [onLead?, hsome] at h
      cases h

end Machine

end Item

end Rds
