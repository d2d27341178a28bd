import Rds.Proofs.Descent.Agreement
import Rds.Proofs.Wire.Unique

namespace Rds.Depth

open Item Descent

variable {α β : Type}

def Limited (o : EStateM.Result Error Progress α) : Prop := ∃ k t, o = .error (.depthLimit k) t

/-- From `s` the readings with the limit `D` or more all end in `o`, which is not a limit,
and those with less end at their limits. -/
structure Threshold (r : Nat → Reading α) (s : Progress) (D : Nat)
    (o : EStateM.Result Error Progress α) : Prop where
  enough : ∀ m, D ≤ m → r m s = o
  short : ∀ m, m < D → ∃ t, r m s = .error (.depthLimit m) t
  unlimited : ¬ Limited o

/-- The readings have a threshold, and one at which they succeed is related to the result. -/
def Gauged (r : Nat → Reading α) (s : Progress) (Q : Nat → α → Progress → Prop) : Prop :=
  ∃ D o, Threshold r s D o ∧ ∀ a t, o = .ok a t → Q D a t

def Unlimited (r : Reading α) : Prop := ∀ s, ¬ Limited (r s)

theorem compositional_unlimited : Compositional Unlimited where
  pure a s := nofun
  fail h s := by
    rintro ⟨k, t, he⟩
    cases he
    exact h
  unsupported _ s := by
    rintro ⟨k, t, he⟩
    cases he
  bind {α β r f} hr hf s := by
    rintro ⟨k, t, he⟩
    cases hs : r s with
    | ok a u =>
      rw [EStateM.bind_of_ok hs] at he
      exact hf a u ⟨k, t, he⟩
    | error err u =>
      rw [EStateM.bind_of_error hs] at he
      cases he
      exact hr s ⟨k, t, hs⟩
  position hf s := hf s.cursor.position s
  table hf s := hf s.table s
  bytes n s := by
    rintro ⟨k, t, he⟩
    by_cases hn : n ≤ s.cursor.remaining
    · rw [onCursor, Cursor.bytes_ok hn] at he
      cases he
    · rw [onCursor, Cursor.bytes_error (Nat.lt_of_not_le hn)] at he
      cases he
  warn _ _ s := nofun
  item _ _ _ s := nofun
  register name s := nofun

namespace Gauged

variable {r : Nat → Reading α} {f : Nat → α → Reading β} {s : Progress}
  {Q Q' : Nat → α → Progress → Prop} {R : Nat → β → Progress → Prop}

theorem mono (h : Gauged r s Q) (hq : ∀ D a t, Q D a t → Q' D a t) : Gauged r s Q' := by
  obtain ⟨D, o, hD, ho⟩ := h
  exact ⟨D, o, hD, fun a t he ↦ hq D a t (ho a t he)⟩

theorem free {r : Reading α} (hr : Unlimited r) (hq : ∀ a t, r s = .ok a t → Q 0 a t) :
    Gauged (fun _ ↦ r) s Q :=
  ⟨0, r s, ⟨fun _ _ ↦ rfl, nofun, hr s⟩, hq⟩

theorem fails {err : Error} (h : ∀ k, err ≠ .depthLimit k) :
    Gauged (fun _ ↦ (MonadExcept.throw err : Reading α)) s Q :=
  .free (compositional_unlimited.throw h) fun _ _ h ↦ absurd h EStateM.throw_ne_ok

theorem pure (a : α) (hq : Q 0 a s) : Gauged (fun _ ↦ Pure.pure a) s Q :=
  .free (compositional_unlimited.pure a) fun _ _ h ↦ by cases h; exact hq

theorem bind (hr : Gauged r s Q)
    (hf : ∀ D a t, Q D a t → Gauged (fun m ↦ f m a) t fun D' ↦ R (max D D')) :
    Gauged (fun m ↦ r m >>= f m) s R := by
  obtain ⟨D, o, hD, ho⟩ := hr
  cases o with
  | error err t =>
    refine ⟨D, .error err t, ⟨fun m hm ↦ ?_, fun m hm ↦ ?_, ?_⟩, nofun⟩
    · exact EStateM.bind_of_error (hD.enough m hm) _
    · obtain ⟨u, hu⟩ := hD.short m hm
      exact ⟨u, EStateM.bind_of_error hu _⟩
    · rintro ⟨k, u, he⟩
      cases he
      exact hD.unlimited ⟨k, t, rfl⟩
  | ok a t =>
    obtain ⟨D', o', hD', ho'⟩ := hf D a t (ho a t rfl)
    refine ⟨max D D', o', ⟨fun m hm ↦ ?_, fun m hm ↦ ?_, hD'.unlimited⟩, ho'⟩
    · rw [EStateM.bind_of_ok (hD.enough m (by omega))]
      exact hD'.enough m (by omega)
    · by_cases hmD : m < D
      · obtain ⟨u, hu⟩ := hD.short m hmD
        exact ⟨u, EStateM.bind_of_error hu _⟩
      · rw [EStateM.bind_of_ok (hD.enough m (by omega))]
        exact hD'.short m (by omega)

/-- An item inside `depth` others needs a limit above `depth`, whatever it holds. -/
theorem guard {depth : Nat} (hr : Gauged r s fun D ↦ Q (max (depth + 1) D)) :
    Gauged (fun m ↦ if m ≤ depth then throw (.depthLimit m) else r m) s Q := by
  obtain ⟨D, o, hD, ho⟩ := hr
  refine ⟨max (depth + 1) D, o, ⟨fun m hm ↦ ?_, fun m hm ↦ ?_, hD.unlimited⟩, ho⟩
  · rw [if_neg (by omega)]
    exact hD.enough m (by omega)
  · by_cases hmd : m ≤ depth
    · rw [if_pos hmd]
      exact ⟨s, rfl⟩
    · rw [if_neg hmd]
      exact hD.short m (by omega)

end Gauged

def Spans (d : Nat) (s : Progress) (D : Nat) (_ : Value) (t : Progress) : Prop :=
  ∃ w : Wire, w.WellFormed ∧ s.cursor.rest = w.bytes ++ t.cursor.rest ∧ D = d + w.nesting

def SpansBehind (d : Nat) (s : Progress) (D : Nat) (_ : Value) (t : Progress) : Prop :=
  ∃ w : Wire, w.WellFormed ∧ s.cursor.rest = w.bytes ++ t.cursor.rest ∧ D = d + w.behind

def SpansPart (d : Nat) (present : Bool) (s : Progress) (D : Nat) (t : Progress) : Prop :=
  ∃ part? : Option Wire, part?.isSome = present ∧ Wire.PartWellFormed part? ∧
    s.cursor.rest = Wire.bytesOfPart part? ++ t.cursor.rest ∧
    max d D = d + Wire.insideOfPart part?

def SpansAll (d n : Nat) (s : Progress) (D : Nat) (t : Progress) : Prop :=
  ∃ ws : List Wire, ws.length = n ∧ Wire.AllWellFormed ws ∧
    s.cursor.rest = Wire.bytesOfAll ws ++ t.cursor.rest ∧ max d D = d + Wire.insideOfAll ws

def SpansContent (d : Nat) (lead : Lead) (s : Progress) (D : Nat) (_ : Value) (t : Progress) :
    Prop :=
  ∃ w : Wire, w.WellFormed ∧ (w.isCell ↔ (lead.flags.type?.bind TypeCode.pairKind?).isSome) ∧
    lead.flags.bytes ++ s.cursor.rest = w.bytes ++ t.cursor.rest ∧ max d D = d + w.inside

theorem max_eq_add {d D x : Nat} (h : D = d + x) : max d D = d + x := by
  rw [h]
  exact Nat.max_eq_right (Nat.le_add_right d x)

theorem max_eq_add_max {d D D' x x' : Nat} (h : max d D = d + x) (h' : max d D' = d + x') :
    max d (max D D') = d + max x x' := by
  omega

theorem Spans.part {d D : Nat} {s t : Progress} {v : Value} (h : Spans d s D v t) :
    SpansPart d true s D t := by
  obtain ⟨w, hw, hrest, hD⟩ := h
  exact ⟨some w, rfl, hw, hrest, max_eq_add hD⟩

theorem SpansPart.absent (d : Nat) (s : Progress) : SpansPart d false s 0 s :=
  ⟨none, rfl, trivial, rfl, Nat.max_zero d⟩

theorem SpansContent.of_single {d D : Nat} {lead : Lead} {s t : Progress} {v : Value} {w : Wire}
    {type : TypeCode} (ht : lead.flags.type? = some type) (hk : type.pairKind? = none)
    (hw : w.WellFormed) (hc : w.isCell = false)
    (hrest : lead.flags.bytes ++ s.cursor.rest = w.bytes ++ t.cursor.rest)
    (hD : max d D = d + w.inside) : SpansContent d lead s D v t := by
  refine ⟨w, hw, ?_, hrest, hD⟩
  rw [hc, ht, Option.bind_some, hk]
  exact iff_of_false nofun nofun

theorem register_stays {v a : Value} {s t : Progress} (h : register v s = .ok a t) :
    t.cursor = s.cursor := by
  cases v <;> cases h
  rfl

theorem bindAttributes_stays {v : Value} {s t : Progress} {as : Attributes}
    (h : bindAttributes v s = .ok as t) : t = s := by
  unfold bindAttributes at h
  cases hv : Attributes.bind v <;> rw [hv] at h <;> cases h
  rfl

theorem require_stays {checked : Except Error α} {s t : Progress} {a : α}
    (h : require checked s = .ok a t) : t = s := by
  cases checked <;> cases h
  rfl

theorem gauged_times {d : Nat} {r : Nat → Reading α}
    (hr : ∀ s, Gauged r s fun D _ t ↦ ∃ v, Spans d s D v t) (n : Nat) (s : Progress) :
    Gauged (fun m ↦ times (r m) n) s fun D _ t ↦ SpansAll d n s D t := by
  induction n generalizing s with
  | zero =>
    refine .pure _ ?_
    exact ⟨[], rfl, trivial, rfl, by rw [Wire.insideOfAll]; omega⟩
  | succ n ih =>
    refine (hr s).bind fun D a t h ↦ (ih t).bind fun D' as u h' ↦ ?_
    refine .pure _ ?_
    obtain ⟨v, w, hw, hrest, hD⟩ := h
    obtain ⟨ws, hl, hws, hrest', hD'⟩ := h'
    refine ⟨w :: ws, congrArg (· + 1) hl, ⟨hw, hws⟩, ?_, ?_⟩
    · rw [hrest, hrest', Wire.bytesOfAll, List.append_assoc]
    · rw [Wire.insideOfAll]
      rw [Wire.nesting] at hD
      omega

theorem gauged_length (s : Progress) :
    Gauged (fun _ ↦ onCursor Cursor.length) s
      fun D n t ↦ D = 0 ∧ n < 2 ^ 31 ∧ s.cursor.rest = lengthBytes n ++ t.cursor.rest :=
  .free compositional_unlimited.length fun _ _ h ↦ ⟨rfl, onCursor_spelled Cursor.spells_length h⟩

theorem gauged_readChars (origin : Origin) (s : Progress) :
    Gauged (fun _ ↦ readChars origin) s fun D _ t ↦ D = 0 ∧ ∃ content? : Option (List UInt8),
      (∀ bytes ∈ content?, bytes.length < 2 ^ 31) ∧
        s.cursor.rest = Wire.contentBytes content? ++ t.cursor.rest :=
  .free (compositional_unlimited.readChars _) fun _ _ h ↦ ⟨rfl, Wire.readChars_spelled h⟩

theorem gauged_atoms {type : TypeCode} {r : Cursor.Reader Atoms} (hr : atomsReader? type = some r)
    (s : Progress) :
    Gauged (fun _ ↦ onCursor r) s fun D _ t ↦ D = 0 ∧ ∃ data : Wire.Data, data.type = type ∧
      data.length < 2 ^ 31 ∧ s.cursor.rest = data.bytes ++ t.cursor.rest := by
  refine .free (compositional_unlimited.atomsReader hr) fun _ _ h ↦ ⟨rfl, ?_⟩
  obtain ⟨d, hd, rfl⟩ := onCursor_eq_ok h
  exact Wire.Data.spelled hr hd

section Parts

variable {nested cdr : Nat → Reading Value} {d : Nat}
  (hn : ∀ s, Gauged nested s (Spans d s)) (hc : ∀ s, Gauged cdr s (SpansBehind d s))

include hn

theorem gauged_attributes (flags : FlagWord) (s : Progress) :
    Gauged (fun m ↦ attributes (nested m) flags) s
      fun D _ t ↦ SpansPart d flags.hasAttributes s D t := by
  unfold attributes
  cases flags.hasAttributes with
  | true =>
    refine (hn s).bind fun D v t h ↦ .free (compositional_unlimited.bindAttributes v) ?_
    intro as u hu
    rw [bindAttributes_stays hu, Nat.max_zero]
    exact h.part
  | false => exact .pure _ (.absent d s)

theorem gauged_tag (flags : FlagWord) (s : Progress) :
    Gauged (fun m ↦ tag (nested m) flags) s fun D _ t ↦ SpansPart d flags.hasTag s D t := by
  unfold tag
  cases flags.hasTag with
  | true =>
    refine (hn s).bind fun D v t h ↦ .free (compositional_unlimited.requireTag v) ?_
    intro name u hu
    rw [require_stays hu, Nat.max_zero]
    exact h.part
  | false => exact .pure _ (.absent d s)

theorem gauged_dropAttributes (flags : FlagWord) (s : Progress) :
    Gauged (fun m ↦ dropAttributes (nested m) flags) s
      fun D _ t ↦ SpansPart d flags.hasAttributes s D t := by
  unfold dropAttributes
  cases flags.hasAttributes with
  | true =>
    refine Gauged.bind (Q := fun D _ t ↦ D = 0 ∧ t.cursor = s.cursor)
      (.free (compositional_unlimited.warn _ rfl) fun _ _ h ↦ by cases h; exact ⟨rfl, rfl⟩) ?_
    rintro _ _ t ⟨rfl, ht⟩
    refine (hn t).bind fun D v u h ↦ .pure _ ?_
    rw [Nat.max_zero, Nat.zero_max]
    unfold SpansPart
    rw [← ht]
    exact h.part
  | false => exact .pure _ (.absent d s)

theorem gauged_string (s : Progress) :
    Gauged (fun m ↦ string (nested m)) s fun D _ t ↦ ∃ v, Spans d s D v t := by
  refine (hn s).bind fun D v t h ↦ .free ?_ fun a u hu ↦ ⟨v, ?_⟩
  · split
    · exact compositional_unlimited.pure _
    · exact compositional_unlimited.throw nofun
  · rw [Nat.max_zero]
    cases v <;> cases hu
    exact h

variable {stream : Nat} {lead : Lead}

theorem gauged_char (cdr : Nat → Reading Value) (stream : Nat)
    (ht : lead.flags.type? = some .char) (s : Progress) :
    Gauged (fun m ↦ contentAs ⟨m, stream⟩ (nested m) (cdr m) lead .char) s
      (SpansContent d lead s) := by
  unfold contentAs
  refine (gauged_readChars ⟨stream, lead.offset⟩ s).bind ?_
  rintro _ content t ⟨rfl, content?, hl, hrest⟩
  refine (gauged_dropAttributes hn lead.flags t).bind fun D _ u h ↦ .pure _ ?_
  obtain ⟨attributes?, ha, haw, hrest', hD⟩ := h
  refine .of_single (w := .char _ content? attributes?) ht rfl ⟨ht, hl, ha, haw⟩ rfl ?_ ?_
  · simp only [hrest, hrest', Wire.bytes, List.append_assoc]
  · rw [Wire.inside]
    omega

theorem gauged_symbol (cdr : Nat → Reading Value) (stream : Nat)
    (ht : lead.flags.type? = some .symbol) (s : Progress) :
    Gauged (fun m ↦ contentAs ⟨m, stream⟩ (nested m) (cdr m) lead .symbol) s
      (SpansContent d lead s) := by
  simp only [contentAs]
  split
  · exact .fails fun _ h ↦ by cases h
  · next hna =>
    refine (hn s).bind fun D v t h ↦ .free (compositional_unlimited.registered v) fun a u hr ↦ ?_
    obtain ⟨w, hw, hrest, hD⟩ := h
    refine .of_single (w := .symbol _ w) ht rfl ⟨ht, eq_false_of_ne_true hna, hw⟩ rfl ?_ ?_
    · simp only [hrest, register_stays hr, Wire.bytes, List.append_assoc]
    · rw [Wire.inside]
      rw [Wire.nesting] at hD
      omega

theorem gauged_list (cdr : Nat → Reading Value) (stream : Nat)
    (ht : lead.flags.type? = some .list) (s : Progress) :
    Gauged (fun m ↦ contentAs ⟨m, stream⟩ (nested m) (cdr m) lead .list) s
      (SpansContent d lead s) := by
  unfold contentAs
  refine (gauged_length s).bind ?_
  rintro _ n t ⟨rfl, hlt, hrest⟩
  refine (gauged_times (fun s ↦ (hn s).mono fun D v t h ↦ ⟨v, h⟩) n t).bind fun D vs u h ↦
    (gauged_attributes hn lead.flags u).bind fun D' as u' h' ↦
      Gauged.pure (Value.list ⟨stream, lead.offset⟩ vs as lead.flags.isObject) ?_
  obtain ⟨elements, rfl, hew, hrest', hD⟩ := h
  obtain ⟨attributes?, ha, haw, hrest'', hD'⟩ := h'
  refine .of_single (w := .list _ elements attributes?) ht rfl ⟨ht, hlt, hew, ha, haw⟩ rfl ?_ ?_
  · simp only [hrest, hrest', hrest'', Wire.bytes, List.append_assoc]
  · rw [Wire.inside]
    omega

theorem gauged_strings (cdr : Nat → Reading Value) (stream : Nat)
    (ht : lead.flags.type? = some .string) (s : Progress) :
    Gauged (fun m ↦ contentAs ⟨m, stream⟩ (nested m) (cdr m) lead .string) s
      (SpansContent d lead s) := by
  unfold contentAs
  refine (gauged_length s).bind ?_
  rintro _ n t ⟨rfl, hlt, hrest⟩
  refine (gauged_times (gauged_string hn) n t).bind fun D vs u h ↦
    (gauged_attributes hn lead.flags u).bind fun D' as u' h' ↦ Gauged.pure
      (Value.vector ⟨stream, lead.offset⟩ (.character vs) as lead.flags.isObject) ?_
  obtain ⟨elements, rfl, hew, hrest', hD⟩ := h
  obtain ⟨attributes?, ha, haw, hrest'', hD'⟩ := h'
  refine .of_single (w := .strings _ elements attributes?) ht rfl ⟨ht, hlt, hew, ha, haw⟩ rfl ?_ ?_
  · simp only [hrest, hrest', hrest'', Wire.bytes, List.append_assoc]
  · rw [Wire.inside]
    omega

theorem gauged_vector {type : TypeCode} {r : Cursor.Reader Atoms}
    (hr : atomsReader? type = some r) (ht : lead.flags.type? = some type) (s : Progress) :
    Gauged (fun m ↦ do
      let atoms ← onCursor r
      let attributes ← attributes (nested m) lead.flags
      return .vector (Setting.origin ⟨m, stream⟩ lead) atoms attributes lead.flags.isObject) s
      (SpansContent d lead s) := by
  refine (gauged_atoms hr s).bind ?_
  rintro _ atoms t ⟨rfl, data, rfl, hlt, hrest⟩
  refine (gauged_attributes hn lead.flags t).bind fun D as u h ↦
    Gauged.pure (Value.vector ⟨stream, lead.offset⟩ atoms as lead.flags.isObject) ?_
  obtain ⟨attributes?, ha, haw, hrest', hD⟩ := h
  refine .of_single (w := .atoms _ data attributes?) ht ?_ ⟨ht, hlt, ha, haw⟩ rfl ?_ ?_
  · cases data <;> rfl
  · simp only [hrest, hrest', Wire.bytes, List.append_assoc]
  · rw [Wire.inside]
    omega

include hc

theorem gauged_cell {kind : PairKind}
    (hk : lead.flags.type?.bind TypeCode.pairKind? = some kind) (s : Progress) :
    Gauged (fun m ↦ cell ⟨m, stream⟩ (nested m) (cdr m) lead kind) s (SpansContent d lead s) := by
  refine (gauged_attributes hn lead.flags s).bind fun D₁ as s₁ h₁ ↦
    (gauged_tag hn lead.flags s₁).bind fun D₂ name s₂ h₂ ↦ (hn s₂).bind fun D₃ car s₃ h₃ ↦
      (hc s₃).bind fun D₄ rest s₄ h₄ ↦
        Gauged.pure (Value.pair ⟨stream, lead.offset⟩ kind name car rest as lead.flags.isObject) ?_
  obtain ⟨attributes?, ha, haw, hrest₁, hD₁⟩ := h₁
  obtain ⟨tag?, ht, htw, hrest₂, hD₂⟩ := h₂
  obtain ⟨w, hw, hrest₃, hD₃⟩ := h₃
  obtain ⟨w', hw', hrest₄, hD₄⟩ := h₄
  refine ⟨.cell lead.flags attributes? tag? w w', ?_, ?_, ?_, ?_⟩
  · exact ⟨⟨kind, hk⟩, ha, haw, ht, htw, hw, hw'⟩
  · rw [hk]
    exact iff_of_true rfl rfl
  · simp only [hrest₁, hrest₂, hrest₃, hrest₄, Wire.bytes, List.append_assoc]
  · rw [Nat.max_zero]
    exact max_eq_add_max hD₁ (max_eq_add_max hD₂ (max_eq_add_max (max_eq_add hD₃) (max_eq_add hD₄)))

theorem gauged_contentAs {type : TypeCode} (ht : lead.flags.type? = some type) (s : Progress) :
    Gauged (fun m ↦ contentAs ⟨m, stream⟩ (nested m) (cdr m) lead type) s
      (SpansContent d lead s) := by
  have hu := compositional_unlimited
  unfold contentAs
  split
  · exact .pure _ (.of_single (w := .null _) ht rfl (.inl ht) rfl rfl (Nat.max_zero d))
  · exact .pure _ (.of_single (w := .null _) ht rfl (.inr ht) rfl rfl (Nat.max_zero d))
  · refine .free (hu.readReference _) fun v t h ↦ ?_
    obtain ⟨index?, hi, hrest⟩ := Wire.readReference_spelled h
    refine .of_single (w := .reference _ index?) ht rfl ⟨ht, hi⟩ rfl ?_ (Nat.max_zero d)
    rw [hrest, Wire.bytes, List.append_assoc]
  · exact gauged_char hn cdr stream ht s
  · exact gauged_symbol hn cdr stream ht s
  · exact gauged_list hn cdr stream ht s
  · exact gauged_strings hn cdr stream ht s
  · split
    · next hr => exact gauged_vector hn hr ht s
    · next hk => exact gauged_cell hn hc (by rw [ht, Option.bind_some, hk]) s
    · exact .fails fun _ h ↦ by cases h

end Parts

theorem gauged_content {nested cdr : Nat → Reading Value} {depth : Nat}
    (hn : ∀ s, Gauged nested s (Spans (depth + 1) s))
    (hc : ∀ s, Gauged cdr s (SpansBehind (depth + 1) s)) (stream : Nat) (lead : Lead)
    (s : Progress) :
    Gauged (fun m ↦ content ⟨m, stream⟩ (nested m) (cdr m) depth lead) s
      fun D v t ↦ depth < D ∧ SpansContent (depth + 1) lead s D v t := by
  unfold content
  cases ht : TypeCode.ofCode? lead.flags.typeByte with
  | none => exact .fails fun _ h ↦ by cases h
  | some type =>
    refine Gauged.guard ?_
    refine Gauged.bind (Q := fun D _ t ↦ D = 0 ∧ t.cursor = s.cursor)
      (.free (fun _ ↦ nofun) fun _ _ h ↦ by cases h; exact ⟨rfl, rfl⟩) ?_
    rintro _ p t ⟨rfl, hp⟩
    refine Gauged.bind (Q := fun D _ t ↦ D = 0 ∧ t.cursor = s.cursor)
      (.free (compositional_unlimited.item _ _ _) fun _ _ h ↦ by cases h; exact ⟨rfl, hp⟩) ?_
    rintro _ _ u ⟨rfl, hu⟩
    refine (gauged_contentAs hn hc ht u).mono fun D v t h ↦ ?_
    obtain ⟨w, hw, hcell, hrest, hD⟩ := h
    rw [hu] at hrest
    exact ⟨by omega, w, hw, hcell, hrest, by omega⟩

theorem gauged_readLead (s : Progress) :
    Gauged (fun _ ↦ readLead) s
      fun D lead t ↦ D = 0 ∧ s.cursor.rest = lead.flags.bytes ++ t.cursor.rest :=
  .free compositional_unlimited.readLead fun _ _ h ↦ ⟨rfl, Wire.readLead_spelled h⟩

theorem gauged_item_rest (stream n : Nat) :
    (∀ depth s, Gauged (fun m ↦ item ⟨m, stream⟩ n depth) s (Spans depth s)) ∧
      ∀ depth s, Gauged (fun m ↦ rest ⟨m, stream⟩ n depth) s (SpansBehind (depth + 1) s) := by
  induction n with
  | zero =>
    have hmissing (k : Nat) : Error.truncated 4 0 ≠ .depthLimit k := by simp
    exact ⟨fun _ _ ↦ .fails hmissing, fun _ _ ↦ .fails hmissing⟩
  | succ n ih =>
    obtain ⟨hi, hr⟩ := ih
    constructor
    · intro depth s
      simp only [item]
      refine (gauged_readLead s).bind ?_
      rintro _ lead t ⟨rfl, hrest⟩
      refine (gauged_content (hi _) (hr _) stream lead t).mono fun D v u h ↦ ?_
      obtain ⟨hlt, w, hw, -, hrest', hD⟩ := h
      exact ⟨w, hw, hrest.trans hrest', by rw [Wire.nesting]; omega⟩
    · intro depth s
      simp only [rest]
      refine (gauged_readLead s).bind ?_
      rintro _ lead t ⟨rfl, hrest⟩
      cases hk : (TypeCode.ofCode? lead.flags.typeByte).bind TypeCode.pairKind? with
      | some kind =>
        refine (gauged_cell (hi _) (hr _) hk t).mono fun D v u h ↦ ?_
        obtain ⟨w, hw, hcell, hrest', hD⟩ := h
        refine ⟨w, hw, hrest.trans hrest', ?_⟩
        have : w.isCell := hcell.mpr (by rw [FlagWord.type?, hk]; rfl)
        have := Wire.inside_pos this
        rw [Wire.behind, if_pos ‹_›]
        omega
      | none =>
        refine (gauged_content (hi _) (hr _) stream lead t).mono fun D v u h ↦ ?_
        obtain ⟨hlt, w, hw, hcell, hrest', hD⟩ := h
        refine ⟨w, hw, hrest.trans hrest', ?_⟩
        have : ¬ w.isCell := fun h ↦ by rw [hcell, FlagWord.type?, hk] at h; cases h
        rw [Wire.behind, if_neg this, Wire.nesting]
        omega

/-- Every item has a depth that it needs. With less the limit is hit, and with any more nothing
changes. What an item needs is its nesting, unless it is broken, and only one item can stand
there. -/
theorem exists_threshold (stream : Nat) (s : Progress) :
    ∃ D o, (∀ m, D ≤ m → read ⟨m, stream⟩ s = o) ∧
      (∀ m, m < D → ∃ t, read ⟨m, stream⟩ s = .error (.depthLimit m) t) ∧
      (∀ k t, o ≠ .error (.depthLimit k) t) ∧
      ∀ v t, o = .ok v t →
        (∃ w : Wire, w.WellFormed ∧ s.cursor.rest = w.bytes ++ t.cursor.rest) ∧
        ∀ w : Wire, w.WellFormed → ∀ back, s.cursor.rest = w.bytes ++ back →
          D = w.nesting ∧ back = t.cursor.rest := by
  obtain ⟨D, o, h, ho⟩ := (gauged_item_rest stream s.cursor.remaining).1 0 s
  have hread (m : Nat) : read ⟨m, stream⟩ s = item ⟨m, stream⟩ s.cursor.remaining 0 s :=
    read_eq_item _ (Nat.le_refl _)
  refine ⟨D, o, fun m hm ↦ ?_, fun m hm ↦ ?_, fun k t he ↦ ?_, fun v t he ↦ ?_⟩
  · rw [hread]
    exact h.enough m hm
  · rw [hread]
    exact h.short m hm
  · exact h.unlimited ⟨k, t, he⟩
  · obtain ⟨w, hw, hrest, hD⟩ := ho v t he
    refine ⟨⟨w, hw, hrest⟩, fun w' hw' back hback ↦ ?_⟩
    obtain ⟨rfl, htail⟩ := Wire.bytes_cancel hw hw' (hrest.symm.trans hback)
    exact ⟨hD.trans (Nat.zero_add _), htail.symm⟩

end Rds.Depth
