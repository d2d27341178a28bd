import Rds.Proofs.Bound
import Rds.Proofs.Encoding.RoundTrip
import Rds.Proofs.Wire.Shedding

namespace Rds.Discarding

open Item Descent Wire

variable {α β γ δ : Type}

/-- Two progresses with the same symbols in their tables, and the one bytes and the other ahead. -/
structure Abreast (s s' : Progress) (ahead ahead' : List UInt8) : Prop where
  symbolic : s.table.Symbolic
  table : s.table.erase = s'.table.erase
  first : s.cursor.rest = ahead
  second : s'.cursor.rest = ahead'

/-- Where the first reading takes the one bytes, the second one takes the others, with a result
that is related. -/
def Tracks (bytes bytes' : List UInt8) (R : α → β → Prop) (r : Reading α) (r' : Reading β) : Prop :=
  ∀ s s' rest rest' a t, Abreast s s' (bytes ++ rest) (bytes' ++ rest') → r s = .ok a t →
    ∃ b t', r' s' = .ok b t' ∧ R a b ∧ Abreast t t' rest rest'

namespace Tracks

variable {bytes bytes' more more' : List UInt8} {R : α → β → Prop} {Q : γ → δ → Prop}
  {r : Reading α} {r' : Reading β} {f : α → Reading γ} {g : β → Reading δ}

theorem pure {a : α} {b : β} (h : R a b) : Tracks [] [] R (pure a) (pure b) := by
  intro s s' rest rest' _ _ hab hr
  obtain ⟨rfl, rfl⟩ := EStateM.pure_eq_ok.mp hr
  exact ⟨b, s', rfl, h, hab⟩

theorem throw (err : Error) (r' : Reading β) : Tracks bytes bytes' R (throw err) r' :=
  fun _ _ _ _ _ _ _ hr ↦ absurd hr EStateM.throw_ne_ok

theorem bind (h : Tracks bytes bytes' R r r')
    (hf : ∀ a b, R a b → Tracks more more' Q (f a) (g b)) :
    Tracks (bytes ++ more) (bytes' ++ more') Q (r >>= f) (r' >>= g) := by
  intro s s' rest rest' c t hab hr
  obtain ⟨a, u, ha, hc⟩ := EStateM.bind_eq_ok.mp hr
  rw [List.append_assoc, List.append_assoc] at hab
  obtain ⟨b, u', hb, hR, hu⟩ := h s s' _ _ a u hab ha
  obtain ⟨d, t', hd, hQ, ht⟩ := hf a b hR u u' rest rest' c t hu hc
  exact ⟨d, t', by rw [EStateM.bind_of_ok hb, hd], hQ, ht⟩

theorem cast (h : Tracks bytes bytes' R r r') (hb : bytes = more) (hb' : bytes' = more') :
    Tracks more more' R r r' := hb ▸ hb' ▸ h

theorem last (h : Tracks bytes bytes' R r r') (hf : ∀ a b, R a b → Tracks [] [] Q (f a) (g b)) :
    Tracks bytes bytes' Q (r >>= f) (r' >>= g) :=
  (h.bind hf).cast (List.append_nil _) (List.append_nil _)

theorem position {f : Nat → Reading α} {g : Nat → Reading β}
    (h : ∀ p p', Tracks bytes bytes' R (f p) (g p')) :
    Tracks bytes bytes' R (get >>= fun s ↦ f s.cursor.position)
      (get >>= fun s ↦ g s.cursor.position) :=
  fun s s' ↦ h s.cursor.position s'.cursor.position s s'

theorem note (event event' : Event) : Tracks [] [] (fun _ _ ↦ True) (note event) (note event') := by
  intro s s' rest rest' a t hab hr
  cases hr
  exact ⟨(), _, rfl, trivial, hab.symbolic, hab.table, hab.first, hab.second⟩

theorem of_yields {good : α → Prop} {good' : β → Prop}
    (h : ∀ T, Encoding.Yields T bytes [] good r) (h' : ∀ T, Encoding.Yields T bytes' [] good' r')
    (hR : ∀ a b, good a → good' b → R a b) : Tracks bytes bytes' R r r' := by
  intro s s' rest rest' a t hab hr
  obtain ⟨a', u, ha, hgood, hrest, htable⟩ := (h s.table).stays rfl hab.first
  obtain ⟨b, t', hb, hgood', hrest', htable'⟩ := (h' s'.table).stays rfl hab.second
  rw [ha] at hr
  cases hr
  exact ⟨b, t', hb, hR _ _ hgood hgood', htable ▸ hab.symbolic,
    by rw [htable, htable', hab.table], hrest, hrest'⟩

theorem onCursor {r : Cursor.Reader α} {spell : α → List UInt8} {valid : α → Prop}
    (h : Cursor.Spells r spell valid) {a : α} (ha : valid a) :
    Tracks (spell a) (spell a) (fun x y ↦ x = a ∧ y = a) (onCursor r) (onCursor r) :=
  .of_yields (fun _ ↦ .onCursor h ha) (fun _ ↦ .onCursor h ha) fun _ _ ↦ And.intro

theorem readLead (word word' : FlagWord) :
    Tracks word.bytes word'.bytes (fun l l' ↦ l.flags = word ∧ l'.flags = word') readLead
      readLead :=
  .of_yields (fun _ ↦ .readLead word) (fun _ ↦ .readLead word') fun _ _ ↦ And.intro

theorem resolve (index : Int32) :
    Tracks [] [] (fun u v ↦ u.erase = v.erase) (do require ((← get).table.resolve index))
      (do require ((← get).table.resolve index)) := by
  intro s s' rest rest' v t hab hr
  change require (s.table.resolve index) s = .ok v t at hr
  have hv := Account.resolve_eq hr
  obtain rfl := Depth.require_stays hr
  obtain ⟨u, t', hu, he, hrest, htable⟩ :=
    (Encoding.Yields.resolve hv).stays hab.table.symm hab.second
  exact ⟨u, t', hu, he.symm, hab.symbolic, htable ▸ hab.table, hab.first, hrest⟩

theorem readReference {word : FlagWord} {index? : Option Int32}
    (hi : index?.isSome ↔ word.packedIndex = 0) :
    Tracks (indexBytes index?) (indexBytes index?) (fun u v ↦ u.erase = v.erase)
      (readReference word) (readReference word) := by
  unfold Item.readReference
  cases index? with
  | some index =>
    rw [if_pos (hi.mp rfl)]
    refine (onCursor Cursor.spells_int32 trivial).last
      (f := fun i ↦ do require ((← get).table.resolve i))
      (g := fun i ↦ do require ((← get).table.resolve i)) fun i i' hi ↦ ?_
    obtain ⟨rfl, rfl⟩ := hi
    exact resolve _
  | none =>
    have hne : ¬ word.packedIndex = 0 := fun h ↦ nomatch hi.mpr h
    rw [if_neg hne, pure_bind]
    exact resolve word.packedIndex

theorem erase_charsOf (origin origin' : Origin) (content? : Option (List UInt8)) :
    (charsOf origin content?).erase = (charsOf origin' content?).erase := by
  cases content? <;> rfl

theorem readChars (origin origin' : Origin) {content? : Option (List UInt8)}
    (hc : ∀ bytes ∈ content?, bytes.length < 2 ^ 31) :
    Tracks (contentBytes content?) (contentBytes content?) (fun c d ↦ c.erase = d.erase)
      (readChars origin) (readChars origin') := by
  intro s s' rest rest' c t hab hr
  obtain ⟨u, hu, hrest, htable⟩ := Account.readChars_read origin hc hab.first
  obtain ⟨t', ht', hrest', htable'⟩ := Account.readChars_read origin' hc hab.second
  rw [hu] at hr
  cases hr
  exact ⟨_, t', ht', erase_charsOf origin origin' content?, htable ▸ hab.symbolic,
    by rw [htable, htable', hab.table], hrest, hrest'⟩

theorem atoms {data : Data} (hl : data.length < 2 ^ 31) {r : Cursor.Reader Atoms}
    (hr : atomsReader? data.type = some r) :
    Tracks data.bytes data.bytes (fun a b ↦ a = data.atoms ∧ b = data.atoms) (Item.onCursor r)
      (Item.onCursor r) :=
  .of_yields (fun _ ↦ .atoms hl hr) (fun _ ↦ .atoms hl hr) fun _ _ ↦ And.intro

theorem bindAttributes {u v : Value} (he : u.erase = v.erase) :
    Tracks [] [] (fun as bs ↦ Value.eraseAttributes as = Value.eraseAttributes bs) (bindAttributes u)
      (bindAttributes v) := by
  unfold Item.bindAttributes
  cases hu : Attributes.bind u with
  | error fault => exact .throw _ _
  | ok as =>
    obtain ⟨bs, hb, hbs⟩ := Attributes.bind_of_erase_eq he.symm hu
    rw [hb]
    exact .pure hbs.symm

theorem requireTag {u v : Value} (he : u.erase = v.erase) :
    Tracks [] [] (fun c? d? ↦ c?.map Chars.erase = d?.map Chars.erase) (require (tagOf u))
      (require (tagOf v)) := by
  cases u with
  | symbol c =>
    cases v with
    | symbol d => exact .pure (congrArg some (Value.symbol.inj he))
    | _ => cases he
  | char c =>
    cases v with
    | char d => exact .pure (congrArg some (Value.char.inj he))
    | _ => cases he
  | null =>
    cases v with
    | null => exact .pure rfl
    | _ => cases he
  | vector _ _ _ _ | list _ _ _ _ | pair _ _ _ _ _ _ _ => exact .throw _ _

theorem register {u v : Value} (he : u.erase = v.erase) :
    Tracks [] [] (fun a b ↦ a.erase = b.erase) (register u) (register v) := by
  cases u with
  | char c =>
    cases v with
    | char d =>
      have hcd : c.erase = d.erase := Value.char.inj he
      intro s s' rest rest' a t hab hr
      cases hr
      refine ⟨.symbol d, _, rfl, congrArg Value.symbol hcd, ?_, ?_, hab.first, hab.second⟩
      · rw [← ReferenceTable.pushAll_singleton]
        exact hab.symbolic.extends (ReferenceTable.extends_pushAll _ _)
      · rw [← ReferenceTable.pushAll_singleton, ← ReferenceTable.pushAll_singleton,
          ReferenceTable.erase_pushAll, ReferenceTable.erase_pushAll, hab.table, List.map_singleton,
          List.map_singleton (f := Chars.erase), hcd]
    | _ => cases he
  | null | symbol _ | vector _ _ _ _ | list _ _ _ _ | pair _ _ _ _ _ _ _ => exact .throw _ _

end Tracks

/-- Whatever item the reading reads, it reads what is left of the item when strings in it have
lost attributes, to a value that differs in origins alone. -/
def Sheds (r : Reading Value) : Prop :=
  ∀ {w w' : Wire}, w.WellFormed → w.Sheds w' →
    Tracks w.bytes w'.bytes (fun u v ↦ u.erase = v.erase) r r

section Parts

variable {nested cdr : Reading Value} (hn : Sheds nested) {e : Setting}

theorem tracks_times {r : Reading α} {f : α → γ}
    (hr : ∀ {w w' : Wire}, w.WellFormed → w.Sheds w' →
      Tracks w.bytes w'.bytes (fun a b ↦ f a = f b) r r)
    {ws ws' : List Wire} (hw : AllWellFormed ws) (h : List.Forall₂ Wire.Sheds ws ws') :
    Tracks (bytesOfAll ws) (bytesOfAll ws') (fun as bs ↦ as.map f = bs.map f)
      (times r ws.length) (times r ws.length) := by
  induction h with
  | nil => exact .pure rfl
  | cons hx _ ih =>
    refine (hr hw.1 hx).bind fun a b hab ↦ (ih hw.2).last fun as bs habs ↦ .pure ?_
    rw [List.map_cons, List.map_cons, hab, habs]

include hn

theorem tracks_attributes {flags : FlagWord} {part? part'? : Option Wire}
    (hw : PartWellFormed part?) (hp : part?.isSome = flags.hasAttributes)
    (h : Option.Rel Wire.Sheds part? part'?) :
    Tracks (bytesOfPart part?) (bytesOfPart part'?)
      (fun as bs ↦ Value.eraseAttributes as = Value.eraseAttributes bs)
      (attributes nested flags) (attributes nested flags) := by
  unfold attributes
  rw [← hp]
  cases h with
  | none => exact .pure rfl
  | some hx => exact (hn hw hx).last fun u v he ↦ .bindAttributes he

theorem tracks_tag {flags : FlagWord} {part? part'? : Option Wire}
    (hw : PartWellFormed part?) (hp : part?.isSome = flags.hasTag)
    (h : Option.Rel Wire.Sheds part? part'?) :
    Tracks (bytesOfPart part?) (bytesOfPart part'?)
      (fun c? d? ↦ c?.map Chars.erase = d?.map Chars.erase)
      (tag nested flags) (tag nested flags) := by
  unfold tag
  rw [← hp]
  cases h with
  | none => exact .pure rfl
  | some hx => exact (hn hw hx).last fun u v he ↦ .requireTag he

theorem tracks_string {w w' : Wire} (hw : w.WellFormed) (h : w.Sheds w') :
    Tracks w.bytes w'.bytes (fun c d ↦ c.erase = d.erase) (string nested) (string nested) := by
  refine (hn hw h).last fun u v he ↦ ?_
  cases u with
  | char c =>
    cases v with
    | char d => exact .pure (Value.char.inj he)
    | _ => cases he
  | null | symbol _ | vector _ _ _ _ | list _ _ _ _ | pair _ _ _ _ _ _ _ => exact .throw _ _

theorem tracks_dropAttributes {flags : FlagWord} {part? part'? : Option Wire}
    (hw : PartWellFormed part?) (hp : part?.isSome = flags.hasAttributes)
    (h : Option.Rel Wire.Sheds part? part'?) :
    Tracks (bytesOfPart part?) (bytesOfPart part'?) (fun _ _ ↦ True)
      (dropAttributes nested flags) (dropAttributes nested flags) := by
  unfold dropAttributes
  rw [← hp]
  cases h with
  | none => exact .pure trivial
  | some hx => exact (Tracks.note _ _).bind fun _ _ _ ↦ (hn hw hx).last fun _ _ _ ↦ .pure trivial

omit hn in
theorem tracks_shed (ha : Account.Accounted e.stream nested) {flags flags' : FlagWord} {x : Wire}
    (hw : x.WellFormed) (hx : x.Symbolless) (hflags : flags.hasAttributes = true)
    (hflags' : flags'.hasAttributes = false) :
    Tracks x.bytes [] (fun _ _ ↦ True) (dropAttributes nested flags)
      (dropAttributes nested flags') := by
  unfold dropAttributes
  rw [if_pos hflags, if_neg (ne_true_of_eq_false hflags')]
  intro s s' rest rest' a t hab hr
  obtain ⟨_, s₁, hnote, hr⟩ := EStateM.bind_eq_ok.mp hr
  cases hnote
  obtain ⟨v, u, hv, hr⟩ := EStateM.bind_eq_ok.mp hr
  obtain ⟨rfl, rfl⟩ := EStateM.pure_eq_ok.mp hr
  obtain ⟨y, hy, hm, -⟩ := Account.Ends.of_ok (ha _ (by exact hab.symbolic)) hv
  obtain ⟨rfl, hrest⟩ := bytes_cancel hw hy (hab.first.symm.trans hm.rest)
  have htable : u.table = s.table := by
    rw [hm.table, hx.names_eq_nil, ReferenceTable.pushAll_nil]
  exact ⟨(), s', rfl, trivial, htable ▸ hab.symbolic, htable ▸ hab.table, hrest.symm, hab.second⟩

section Content

variable {lead lead' : Lead} {part? part'? : Option Wire}

theorem tracks_char (ha : Account.Accounted e.stream nested) {content? : Option (List UInt8)}
    {w' : Wire} (hw : (Wire.char lead.flags content? part?).WellFormed)
    (h : (Wire.char lead.flags content? part?).Sheds w') (hlead' : lead'.flags = w'.word) :
    Tracks (Wire.char lead.flags content? part?).payload w'.payload (fun u v ↦ u.erase = v.erase)
      (contentAs e nested cdr lead .char) (contentAs e nested cdr lead' .char) := by
  obtain ⟨-, hc, hp, hpart⟩ := hw
  cases h with
  | char _ _ hrel =>
    have hflags : lead'.flags = lead.flags := hlead'
    refine (Tracks.readChars _ _ hc).bind fun c d hcd ↦ ?_
    rw [hflags]
    exact (tracks_dropAttributes hn hpart hp hrel).last fun _ _ _ ↦ .pure (congrArg Value.char hcd)
  | shed _ _ hx =>
    have hflags' : lead'.flags.hasAttributes = false := by
      rw [hlead']
      exact lead.flags.hasAttributes_withoutAttributes
    exact (Tracks.readChars _ _ hc).bind fun c d hcd ↦
      (tracks_shed ha hpart hx hp.symm hflags').last fun _ _ _ ↦ .pure (congrArg Value.char hcd)

variable (hflags : lead'.flags = lead.flags)

include hflags

theorem tracks_symbol {name name' : Wire} (hw : (Wire.symbol lead.flags name).WellFormed)
    (h : name.Sheds name') :
    Tracks name.bytes name'.bytes (fun u v ↦ u.erase = v.erase)
      (contentAs e nested cdr lead .symbol) (contentAs e nested cdr lead' .symbol) := by
  obtain ⟨-, hna, hname⟩ := hw
  simp only [contentAs, hflags, hna, Bool.false_eq_true, if_false]
  exact (hn hname h).last fun u v he ↦ .register he

theorem tracks_list {ws ws' : List Wire} (hw : (Wire.list lead.flags ws part?).WellFormed)
    (hws : List.Forall₂ Wire.Sheds ws ws') (h : Option.Rel Wire.Sheds part? part'?) :
    Tracks (Wire.list lead.flags ws part?).payload (Wire.list lead.flags ws' part'?).payload
      (fun u v ↦ u.erase = v.erase) (contentAs e nested cdr lead .list)
      (contentAs e nested cdr lead' .list) := by
  obtain ⟨-, hlt, hall, hp, hpart⟩ := hw
  rw [payload, payload, ← hws.length_eq]
  simp only [contentAs, hflags]
  refine (Tracks.onCursor Cursor.spells_length hlt).bind fun k k' hk ↦ ?_
  obtain ⟨rfl, rfl⟩ := hk
  refine (tracks_times (f := Value.erase) hn hall hws).bind fun us vs huv ↦
    (tracks_attributes hn hpart hp h).last fun as bs hab ↦ .pure ?_
  rw [Value.erase, Value.erase, Value.eraseAll_eq_map, Value.eraseAll_eq_map, huv, hab]

theorem tracks_strings {ws ws' : List Wire} (hw : (Wire.strings lead.flags ws part?).WellFormed)
    (hws : List.Forall₂ Wire.Sheds ws ws') (h : Option.Rel Wire.Sheds part? part'?) :
    Tracks (Wire.strings lead.flags ws part?).payload (Wire.strings lead.flags ws' part'?).payload
      (fun u v ↦ u.erase = v.erase) (contentAs e nested cdr lead .string)
      (contentAs e nested cdr lead' .string) := by
  obtain ⟨-, hlt, hall, hp, hpart⟩ := hw
  rw [payload, payload, ← hws.length_eq]
  simp only [contentAs, hflags]
  refine (Tracks.onCursor Cursor.spells_length hlt).bind fun k k' hk ↦ ?_
  obtain ⟨rfl, rfl⟩ := hk
  refine (tracks_times (f := Chars.erase) (tracks_string hn) hall hws).bind fun cs ds hcd ↦
    (tracks_attributes hn hpart hp h).last fun as bs hab ↦ .pure ?_
  rw [Value.erase, Value.erase, Atoms.erase, Atoms.erase, hcd, hab]

theorem tracks_vector {data : Data} (hw : (Wire.atoms lead.flags data part?).WellFormed)
    (h : Option.Rel Wire.Sheds part? part'?) {r : Cursor.Reader Atoms}
    (hr : atomsReader? data.type = some r) :
    Tracks (Wire.atoms lead.flags data part?).payload (Wire.atoms lead.flags data part'?).payload
      (fun u v : Value ↦ u.erase = v.erase)
      (do
        let atoms ← onCursor r
        let attributes ← attributes nested lead.flags
        return .vector (e.origin lead) atoms attributes lead.flags.isObject)
      (do
        let atoms ← onCursor r
        let attributes ← attributes nested lead'.flags
        return .vector (e.origin lead') atoms attributes lead'.flags.isObject) := by
  obtain ⟨-, hlt, hp, hpart⟩ := hw
  rw [hflags]
  refine (Tracks.atoms hlt hr).bind fun a b hab ↦
    (tracks_attributes hn hpart hp h).last fun as bs habs ↦ .pure ?_
  rw [Value.erase, Value.erase, hab.1, hab.2, habs]

theorem tracks_cell (hc : Sheds cdr) {tag? tag'? : Option Wire} {car car' rest rest' : Wire}
    (hw : (Wire.cell lead.flags part? tag? car rest).WellFormed)
    (h : Option.Rel Wire.Sheds part? part'?) (htag : Option.Rel Wire.Sheds tag? tag'?)
    (hcar : car.Sheds car') (hrest : rest.Sheds rest') (kind : PairKind) :
    Tracks (Wire.cell lead.flags part? tag? car rest).payload
      (Wire.cell lead.flags part'? tag'? car' rest').payload (fun u v ↦ u.erase = v.erase)
      (cell e nested cdr lead kind) (cell e nested cdr lead' kind) := by
  obtain ⟨-, hp, hpart, ht, hwtag, hwcar, hwrest⟩ := hw
  simp only [Descent.cell, hflags]
  refine (tracks_attributes hn hpart hp h).bind fun as bs hab ↦
    (tracks_tag hn hwtag ht htag).bind fun c? d? hcd ↦ (hn hwcar hcar).bind fun u v huv ↦
      (hc hwrest hrest).last fun u' v' huv' ↦ .pure ?_
  rw [Value.erase, Value.erase, hab, hcd, huv, huv']

end Content

theorem tracks_contentAs (hc : Sheds cdr) (ha : Account.Accounted e.stream nested)
    {lead lead' : Lead} {w w' : Wire} {type : TypeCode} (hw : w.WellFormed) (h : w.Sheds w')
    (hlead : lead.flags = w.word) (hlead' : lead'.flags = w'.word)
    (ht : lead.flags.type? = some type) :
    Tracks w.payload w'.payload (fun u v ↦ u.erase = v.erase)
      (contentAs e nested cdr lead type) (contentAs e nested cdr lead' type) := by
  cases h with
  | null word =>
    obtain rfl : lead.flags = word := hlead
    obtain hw | hw := hw <;> obtain rfl := Option.some.inj (ht.symm.trans hw) <;> exact .pure rfl
  | reference word index? =>
    obtain rfl : lead.flags = word := hlead
    obtain ⟨ht', hi⟩ := hw
    obtain rfl := Option.some.inj (ht.symm.trans ht')
    have hflags : lead'.flags = lead.flags := hlead'
    change Tracks _ _ _ (readReference lead.flags) (readReference lead'.flags)
    rw [hflags]
    exact .readReference hi
  | char word content? hpart =>
    obtain rfl : lead.flags = word := hlead
    obtain rfl := Option.some.inj (ht.symm.trans hw.1)
    exact tracks_char hn ha hw (.char _ content? hpart) hlead'
  | shed word content? hx =>
    obtain rfl : lead.flags = word := hlead
    obtain rfl := Option.some.inj (ht.symm.trans hw.1)
    exact tracks_char hn ha hw (.shed _ content? hx) hlead'
  | symbol word hname =>
    obtain rfl : lead.flags = word := hlead
    obtain rfl := Option.some.inj (ht.symm.trans hw.1)
    exact tracks_symbol hn hlead' hw hname
  | atoms word data hpart =>
    obtain rfl : lead.flags = word := hlead
    obtain rfl := Option.some.inj (ht.symm.trans hw.1)
    cases data <;> exact tracks_vector hn hlead' hw hpart rfl
  | strings word hws hpart =>
    obtain rfl : lead.flags = word := hlead
    obtain rfl := Option.some.inj (ht.symm.trans hw.1)
    exact tracks_strings hn hlead' hw hws hpart
  | list word hws hpart =>
    obtain rfl : lead.flags = word := hlead
    obtain rfl := Option.some.inj (ht.symm.trans hw.1)
    exact tracks_list hn hlead' hw hws hpart
  | cell word hpart htag hcar hcdr =>
    obtain rfl : lead.flags = word := hlead
    obtain ⟨kind, hk⟩ := hw.1
    have hcell := tracks_cell (e := e) hn hlead' hc hw hpart htag hcar hcdr kind
    rw [ht, Option.bind_some] at hk
    cases type <;> cases hk <;> exact hcell

theorem tracks_content (hc : Sheds cdr) (ha : Account.Accounted e.stream nested)
    {lead lead' : Lead} {depth : Nat} {w w' : Wire} (hw : w.WellFormed) (h : w.Sheds w')
    (hlead : lead.flags = w.word) (hlead' : lead'.flags = w'.word) :
    Tracks w.payload w'.payload (fun u v ↦ u.erase = v.erase)
      (content e nested cdr depth lead) (content e nested cdr depth lead') := by
  have hbyte : lead'.flags.typeByte = lead.flags.typeByte := by rw [hlead, hlead', h.typeByte]
  unfold content
  rw [hbyte]
  cases ht : TypeCode.ofCode? lead.flags.typeByte with
  | none => exact .throw _ _
  | some type =>
    dsimp only
    split
    · exact .throw _ _
    · refine .position
        (f := fun p ↦ note (.item type p (depth + 1)) >>= fun _ ↦ contentAs e nested cdr lead type)
        (g := fun p ↦ note (.item type p (depth + 1)) >>= fun _ ↦ contentAs e nested cdr lead' type)
        fun p p' ↦ ?_
      exact (Tracks.note _ _).bind fun _ _ _ ↦ tracks_contentAs hn hc ha hw h hlead hlead' ht

end Parts

theorem isCell_of_pairKind {w : Wire} {kind : PairKind} (hw : w.WellFormed)
    (hk : w.word.type?.bind TypeCode.pairKind? = some kind) : w.form = .cell := by
  obtain ⟨type, ht, hk⟩ := Option.bind_eq_some_iff.mp hk
  have hform := form_eq hw
  rw [ht, Option.map_some, formOf_pairKind hk] at hform
  exact (Option.some.inj hform).symm

theorem sheds_item_rest (e : Setting) (n : Nat) :
    (∀ depth, Sheds (item e n depth)) ∧ ∀ depth, Sheds (rest e n depth) := by
  induction n with
  | zero => exact ⟨fun _ _ _ _ _ ↦ .throw _ _, fun _ _ _ _ _ ↦ .throw _ _⟩
  | succ n ih =>
    obtain ⟨hi, hr⟩ := ih
    have ha := (Account.accounted_item_rest e n).1
    constructor
    · intro depth w w' hw h
      rw [w.bytes_eq, w'.bytes_eq, item]
      exact (Tracks.readLead _ _).bind fun lead lead' hleads ↦
        tracks_content (hi _) (hr _) (ha _) hw h hleads.1 hleads.2
    · intro depth w w' hw h
      rw [w.bytes_eq, w'.bytes_eq, rest]
      refine (Tracks.readLead _ _).bind fun lead lead' hleads ↦ ?_
      obtain ⟨hlead, hlead'⟩ := hleads
      have hbyte : lead'.flags.typeByte = lead.flags.typeByte := by rw [hlead, hlead', h.typeByte]
      rw [hbyte]
      split
      · next kind hk =>
        rw [hlead] at hk
        have hform := isCell_of_pairKind hw hk
        cases h with
        | cell word hpart htag hcar hcdr =>
          obtain rfl : lead.flags = word := hlead
          exact tracks_cell (hi _) hlead' (hr _) hw hpart htag hcar hcdr kind
        | _ => cases hform
      · exact tracks_content (hi _) (hr _) (ha _) hw h hlead hlead'

section Whole

variable {e : Setting} {s t : Progress} {v : Value}

theorem read_of_sheds {w w' : Wire} (hs : s.table.Symbolic) (hw : w.WellFormed)
    (hrest : s.cursor.rest = w.bytes ++ t.cursor.rest) (h : read e s = .ok v t)
    (hsheds : w.Sheds w') :
    ∃ u t', read e (s.ahead (w'.bytes ++ t.cursor.rest)) = .ok u t' ∧ (u == v) = true ∧
      (∃ new new', t.table = s.table.pushAll new ∧ t'.table = s.table.pushAll new' ∧
        new'.map Chars.text? = new.map Chars.text?) ∧
      t'.cursor.rest = t.cursor.rest ∧
      t'.cursor.position + w.bytes.length = t.cursor.position + w'.bytes.length := by
  let s' := s.ahead (w'.bytes ++ t.cursor.rest)
  let n := max s.cursor.remaining s'.cursor.remaining
  have hab : Abreast s s' (w.bytes ++ t.cursor.rest) (w'.bytes ++ t.cursor.rest) :=
    ⟨hs, rfl, hrest, rfl⟩
  have hitem := read_eq_item e (Nat.le_max_left s.cursor.remaining s'.cursor.remaining)
  have hitem' := read_eq_item e (Nat.le_max_right s.cursor.remaining s'.cursor.remaining)
  obtain ⟨u, t', hu, he, ht⟩ :=
    (sheds_item_rest e n).1 0 hw hsheds s s' _ _ v t hab (hitem.symm.trans h)
  have hread : read e s' = .ok u t' := hitem'.trans hu
  obtain ⟨x, -, hm, -⟩ := (Account.accounted_read e s hs).of_ok h
  obtain ⟨x', -, hm', -⟩ := (Account.accounted_read e s' hs).of_ok hread
  have hbytes : x.bytes = w.bytes := List.append_cancel_right (hm.rest.symm.trans hrest)
  have hbytes' : x'.bytes = w'.bytes := by
    have hrest' := hm'.rest
    rw [ht.second] at hrest'
    exact (List.append_cancel_right hrest').symm
  refine ⟨u, t', hread, Value.beq_of_erase_eq (bound_of_read (s := s') hs hread)
    (bound_of_read hs h) he.symm, ⟨_, _, hm.table, hm'.table, ?_⟩, ht.second, ?_⟩
  · have htable := ht.table
    rw [hm.table, hm'.table, ReferenceTable.erase_pushAll, ReferenceTable.erase_pushAll] at htable
    have hnames := (List.map_injective_iff.mpr fun _ _ ↦ Value.symbol.inj)
      (List.append_cancel_left htable)
    have htext := congrArg (List.map Chars.text?) hnames
    rw [List.map_map, List.map_map] at htext
    simpa only [Function.comp_def, Chars.text?_erase] using htext.symm
  · have hposition : s'.cursor.position = s.cursor.position := rfl
    rw [hm.position, hm'.position, hbytes, hbytes', hposition]
    omega

/-- A string of length -1 is the missing string, also inside other items, and whatever attributes
it has. -/
theorem eq_na_of_missingLength {word : FlagWord} {more : List UInt8} (hs : s.table.Symbolic)
    (ht : word.type? = some .char)
    (hrest : s.cursor.rest = word.bytes ++ (int32Bytes missingLength ++ more))
    {r : Reading Value} (hr : Account.Accounted e.stream r) (h : r s = .ok v t) :
    v = .char .na := by
  obtain ⟨w, hw, hm, hv⟩ := (hr s hs).of_ok h
  have hbytes := hrest.symm.trans hm.rest
  rw [bytes_eq, List.append_assoc] at hbytes
  obtain ⟨hword, hpayload⟩ := word_cancel hbytes
  have hform := form_eq hw
  rw [← hword, ht] at hform
  cases w with
  | char word' content? part? =>
    rw [payload, List.append_assoc] at hpayload
    have hnone : ∀ bytes ∈ (none : Option (List UInt8)), bytes.length < 2 ^ 31 := nofun
    obtain ⟨hcontent, -⟩ := content_cancel hnone hw.2.1 hpayload
    have hvalue := hv _ (.refl _)
    rw [← hcontent] at hvalue
    exact (Option.some.inj hvalue).symm
  | _ => cases hform

/-- Attributes of a string that have no symbol in them may be left out, wherever the string is in
the item that is read. What is read is equal, and the fewer bytes are all that is missing. A
string of length -1 is the missing one, whatever attributes it has. -/
theorem read_without_string_attributes (hs : s.table.Symbolic) (h : read e s = .ok v t) :
    (∃ w : Wire, w.WellFormed ∧ s.cursor.rest = w.bytes ++ t.cursor.rest ∧
      ∀ y ∈ Place.all ⟨s.cursor.position, w⟩, ∀ word content? x,
        y.item = .char word content? (some x) → x.Symbolless →
        ∃ front back,
          s.cursor.rest = front ++ (word.bytes ++ (contentBytes content? ++ (x.bytes ++ back))) ∧
          y.offset = s.cursor.position + front.length ∧
          ∃ u t', read e (s.ahead (front ++ (word.withoutAttributes.bytes ++
              (contentBytes content? ++ back)))) = .ok u t' ∧
            (u == v) = true ∧
            (∃ new new', t.table = s.table.pushAll new ∧ t'.table = s.table.pushAll new' ∧
              new'.map Chars.text? = new.map Chars.text?) ∧
            t'.cursor.rest = t.cursor.rest ∧
            t'.cursor.position + x.bytes.length = t.cursor.position) ∧
    (∀ (word : FlagWord) (more : List UInt8), word.type? = some .char →
      s.cursor.rest = word.bytes ++ (int32Bytes missingLength ++ more) → v = .char .na) ∧
    (∀ n depth s₀ u t₀ (word : FlagWord) (more : List UInt8), s₀.table.Symbolic →
      word.type? = some .char →
      s₀.cursor.rest = word.bytes ++ (int32Bytes missingLength ++ more) →
      item e n depth s₀ = .ok u t₀ ∨ rest e n depth s₀ = .ok u t₀ → u = .char .na) := by
  refine ⟨?_, fun word more ht hrest ↦
    eq_na_of_missingLength hs ht hrest (Account.accounted_read e) h, ?_⟩
  · obtain ⟨w, hw, hm, -⟩ := (Account.accounted_read e s hs).of_ok h
    refine ⟨w, hw, hm.rest, fun y hy word content? x hitem hx ↦ ?_⟩
    obtain ⟨w', front, back, hsheds, hbytes, hbytes', hoffset⟩ :=
      exists_sheds_of_mem_all hy (hitem ▸ Sheds.shed word content? hx)
    rw [hitem] at hbytes
    simp only [Wire.bytes, bytesOfPart, List.append_nil, List.append_assoc] at hbytes hbytes'
    refine ⟨front, back ++ t.cursor.rest, ?_, hoffset, ?_⟩
    · rw [hm.rest, hbytes]
      simp only [List.append_assoc]
    · obtain ⟨u, t', hu, heq, htable, hrest, hposition⟩ := read_of_sheds hs hw hm.rest h hsheds
      rw [hbytes'] at hu
      simp only [List.append_assoc] at hu
      refine ⟨u, t', hu, heq, htable, hrest, ?_⟩
      rw [hbytes, hbytes'] at hposition
      simp only [List.length_append, FlagWord.length_bytes] at hposition
      omega
  · rintro n depth s₀ u t₀ word more hs₀ ht hrest (h₀ | h₀)
    · exact eq_na_of_missingLength hs₀ ht hrest ((Account.accounted_item_rest e n).1 depth) h₀
    · exact eq_na_of_missingLength hs₀ ht hrest ((Account.accounted_item_rest e n).2 depth) h₀

end Whole

def attributedString : List UInt8 :=
  [0, 0, 0, 16, 0, 0, 0, 1, 0, 0, 2, 9, 0, 0, 0, 1, 97, 0, 0, 0, 13, 0, 0, 0, 1, 0, 0, 0, 7]

def plainString : List UInt8 := [0, 0, 0, 16, 0, 0, 0, 1, 0, 0, 0, 9, 0, 0, 0, 1, 97]

theorem read_attributedString :
    ∃ v t u t', read ⟨9, 0⟩ (.start attributedString []) = .ok v t ∧
      read ⟨9, 0⟩ (.start plainString []) = .ok u t' ∧ (u == v) = true ∧
      t'.cursor.rest = t.cursor.rest ∧ t'.cursor.position + 12 = t.cursor.position := by
  have hread : (match read ⟨9, 0⟩ (.start attributedString []) with
      | .ok _ _ => true
      | .error _ _ => false) = true := by decide +kernel
  cases h : read ⟨9, 0⟩ (.start attributedString []) with
  | error err t =>
    rw [h] at hread
    cases hread
  | ok v t =>
    obtain ⟨⟨w, hw, hrest, hall⟩, -⟩ := read_without_string_attributes
      (s := .start attributedString []) ReferenceTable.symbolic_empty h
    let x : Wire := .atoms ⟨13⟩ (.integer [7]) none
    let string : Wire := .char ⟨0x209⟩ (some [97]) (some x)
    have hstrings : (Wire.strings ⟨16⟩ [string] none).WellFormed :=
      ⟨rfl, by decide, ⟨⟨rfl, by decide, rfl, rfl, by decide, rfl, trivial⟩, trivial⟩, rfl, trivial⟩
    have hbytes : attributedString = (Wire.strings ⟨16⟩ [string] none).bytes ++ [] := by
      decide +kernel
    obtain ⟨rfl, -⟩ := bytes_cancel hw hstrings (hrest.symm.trans hbytes)
    have hx : x.Symbolless := .intro nofun nofun
    have hy : ⟨8, string⟩ ∈ Place.all ⟨0, .strings ⟨16⟩ [string] none⟩ :=
      Place.mem_all_of_mem_parts (y := ⟨8, string⟩) (List.mem_singleton_self _)
        (Place.mem_all_self _)
    obtain ⟨front, back, hfront, hoffset, u, t', hu, heq, -, hrest', hposition⟩ :=
      hall _ hy _ _ _ rfl hx
    have hlength : front.length = 8 := (hoffset.trans (Nat.zero_add _)).symm
    obtain rfl : front = [0, 0, 0, 16, 0, 0, 0, 1] := by
      have htake := congrArg (List.take 8) hfront
      rw [List.take_left' hlength] at htake
      exact htake.symm
    obtain rfl : back = [] := (congrArg (List.drop 29) hfront).symm
    exact ⟨v, t, u, t', rfl, hu, heq, hrest', hposition⟩

end Rds.Discarding
