import Rds.Proofs.Descent.Agreement
import Rds.Proofs.Encoding

namespace Rds.Encoding

open Item Descent

variable {α β : Type}

/-- With the bytes ahead, and with any others behind them, the reading ends in a good result
just behind the bytes, and enters the names into a table that differs from `T` in origins
alone. -/
def Yields (T : ReferenceTable) (bytes : List UInt8) (names : List Chars) (good : α → Prop)
    (r : Reading α) : Prop :=
  ∀ s rest, s.table.erase = T.erase → s.cursor.rest = bytes ++ rest →
    ∃ a t entered, r s = .ok a t ∧ good a ∧
      t.cursor = ⟨s.cursor.position + bytes.length, rest⟩ ∧
      t.table = s.table.pushAll entered ∧ entered.map Chars.erase = names.map Chars.erase

namespace Yields

variable {T : ReferenceTable} {bytes bytes' : List UInt8} {names names' : List Chars}
  {good : α → Prop} {good' : β → Prop} {r : Reading α} {f : α → Reading β}

theorem of_stays (h : ∀ s rest, s.table.erase = T.erase → s.cursor.rest = bytes ++ rest →
    ∃ a t, r s = .ok a t ∧ good a ∧ t.cursor = ⟨s.cursor.position + bytes.length, rest⟩ ∧
      t.table = s.table) : Yields T bytes [] good r := by
  intro s rest hT hs
  obtain ⟨a, t, hr, ha, hc, ht⟩ := h s rest hT hs
  exact ⟨a, t, [], hr, ha, hc, by rw [ht, ReferenceTable.pushAll_nil], rfl⟩

theorem stays (h : Yields T bytes [] good r) {s : Progress} {rest : List UInt8}
    (hT : s.table.erase = T.erase) (hs : s.cursor.rest = bytes ++ rest) :
    ∃ a t, r s = .ok a t ∧ good a ∧ t.cursor.rest = rest ∧ t.table = s.table := by
  obtain ⟨a, t, entered, hr, ha, hc, ht, hn⟩ := h s rest hT hs
  obtain rfl := List.map_eq_nil_iff.mp hn
  exact ⟨a, t, hr, ha, by rw [hc], by rw [ht, ReferenceTable.pushAll_nil]⟩

theorem pure {a : α} (ha : good a) : Yields T [] [] good (pure a) :=
  of_stays fun s _ _ hs ↦ ⟨a, s, rfl, ha, congrArg (Cursor.mk s.cursor.position) hs, rfl⟩

theorem bind (hr : Yields T bytes names good r)
    (hf : ∀ a, good a → Yields (T.pushAll names) bytes' names' good' (f a)) :
    Yields T (bytes ++ bytes') (names ++ names') good' (r >>= f) := by
  intro s rest hT hs
  rw [List.append_assoc] at hs
  obtain ⟨a, t, entered, hr, ha, hc, ht, hn⟩ := hr s _ hT hs
  have hT' : t.table.erase = (T.pushAll names).erase := by
    rw [ht, ReferenceTable.erase_pushAll, ReferenceTable.erase_pushAll, hT, hn]
  obtain ⟨b, u, entered', hb, hgood, hc', hu, hn'⟩ := hf a ha t rest hT' (by rw [hc])
  refine ⟨b, u, entered ++ entered', ?_, hgood, ?_, ?_, ?_⟩
  · rw [EStateM.bind_of_ok hr, hb]
  · rw [hc', hc, List.length_append, Nat.add_assoc]
  · rw [hu, ht, ReferenceTable.pushAll_append]
  · rw [List.map_append, List.map_append, hn, hn']

theorem mono {good' : α → Prop} (h : Yields T bytes names good r) (hg : ∀ a, good a → good' a) :
    Yields T bytes names good' r := by
  intro s rest hT hs
  obtain ⟨a, t, entered, hr, ha, ht⟩ := h s rest hT hs
  exact ⟨a, t, entered, hr, hg a ha, ht⟩

theorem cast (h : Yields T bytes names good r) (hb : bytes = bytes') (hn : names = names') :
    Yields T bytes' names' good r := hb ▸ hn ▸ h

theorem bind_nil (hr : Yields T bytes [] good r)
    (hf : ∀ a, good a → Yields T bytes' names' good' (f a)) :
    Yields T (bytes ++ bytes') names' good' (r >>= f) := by
  refine hr.bind fun a ha ↦ ?_
  rw [ReferenceTable.pushAll_nil]
  exact hf a ha

theorem onCursor {r : Cursor.Reader α} {spell : α → List UInt8} {valid : α → Prop}
    (h : Cursor.Spells r spell valid) {a : α} (ha : valid a) :
    Yields T (spell a) [] (· = a) (onCursor r) :=
  of_stays fun _ _ _ hs ↦ ⟨a, _, onCursor_read h ha hs, rfl, rfl, rfl⟩

theorem position {f : Nat → Reading α} (h : ∀ p, Yields T bytes names good (f p)) :
    Yields T bytes names good (get >>= fun s ↦ f s.cursor.position) :=
  fun s ↦ h s.cursor.position s

theorem note (event : Event) : Yields T [] [] (fun _ ↦ True) (note event) :=
  of_stays fun s _ _ hs ↦ ⟨(), _, rfl, trivial, congrArg (Cursor.mk s.cursor.position) hs, rfl⟩

theorem readLead (word : FlagWord) : Yields T word.bytes [] (·.flags = word) readLead := by
  refine of_stays fun s rest _ hs ↦ ⟨⟨s.cursor.position, word⟩,
    { s with cursor := ⟨s.cursor.position + word.bytes.length, rest⟩ }, ?_, rfl, rfl, rfl⟩
  exact EStateM.bind_of_ok (onCursor_read Cursor.spells_int32 trivial hs) _

theorem resolve {index : Int32} {v : Value} (hv : T.get? index = some v) :
    Yields T [] [] (·.erase = v.erase) (do require ((← get).table.resolve index)) := by
  refine of_stays fun s rest hT hs ↦ ?_
  obtain ⟨u, hu, he⟩ := ReferenceTable.get?_of_erase hT hv
  refine ⟨u, s, ?_, he, congrArg (Cursor.mk s.cursor.position) hs, rfl⟩
  have hr : s.table.resolve index = .ok u := by rw [ReferenceTable.resolve, hu]
  change require (s.table.resolve index) s = .ok u s
  rw [hr]
  rfl

theorem readReference {word : FlagWord} {index? : Option Int32}
    (hi : index?.isSome ↔ word.packedIndex = 0) {v : Value}
    (hv : T.get? (index?.getD word.packedIndex) = some v) :
    Yields T (Wire.indexBytes index?) [] (·.erase = v.erase) (readReference word) := by
  unfold Item.readReference
  cases index? with
  | some index =>
    rw [if_pos (hi.mp rfl)]
    refine (onCursor Cursor.spells_int32 trivial).bind_nil (f := fun i ↦ do
      require ((← get).table.resolve i)) (fun i hi ↦ ?_) |>.cast (List.append_nil _) rfl
    obtain rfl := hi
    exact resolve hv
  | none =>
    have hne : ¬ word.packedIndex = 0 := fun h ↦ nomatch hi.mpr h
    rw [if_neg hne, pure_bind]
    exact resolve hv

theorem readChars (origin : Origin) {content : Chars} (hc : content.Storable) :
    Yields T (Wire.contentBytes (content.text?.map Utf8.encode)) [] (·.erase = content.erase)
      (readChars origin) := by
  unfold Item.readChars
  cases content with
  | na =>
    refine ((onCursor Cursor.spells_int32 trivial).bind fun n hn ↦ ?_).cast (List.append_nil _) rfl
    rw [if_pos hn]
    exact pure rfl
  | text place s =>
    have hl : (Utf8.encode s).length < 2 ^ 31 := hc
    refine (onCursor Cursor.spells_int32 trivial).bind_nil fun n hn ↦ ?_
    obtain rfl : n = Int32.ofNat (Utf8.encode s).length := hn
    rw [if_neg (length_ne_missing hl), if_neg (Cursor.nonneg_ofNat hl), Int32.toNatClampNeg_ofNat_of_lt hl]
    refine ((onCursor (Cursor.spells_bytes _) rfl).bind fun bytes hb ↦ ?_).cast
      (List.append_nil _) rfl
    obtain rfl : bytes = Utf8.encode s := hb
    have htext : (Chars.text origin (String.ofList (Utf8.repair (Utf8.encode s)))).erase =
        (Chars.text place s).erase := by
      rw [Utf8.repair_encode, String.ofList_toList]
      rfl
    cases Utf8.fault? (Utf8.encode s) with
    | some fault => exact (note _).bind_nil fun _ _ ↦ pure htext
    | none => exact pure htext

theorem atoms {data : Wire.Data} (hl : data.length < 2 ^ 31) {r : Cursor.Reader Atoms}
    (hr : atomsReader? data.type = some r) :
    Yields T data.bytes [] (· = data.atoms) (Item.onCursor r) :=
  of_stays fun _ _ _ hs ↦ ⟨data.atoms, _, Wire.Data.onCursor_read hl hr hs, rfl, rfl, rfl⟩

theorem bindAttributes {as : Attributes} (h : Attributes.bind (Attributes.chain as) = .ok as)
    {v : Value} (hv : v.erase = (Attributes.chain as).erase) :
    Yields T [] [] (Value.eraseAttributes · = Value.eraseAttributes as) (bindAttributes v) := by
  obtain ⟨bs, hb, he⟩ := Attributes.bind_of_erase_eq hv h
  unfold Item.bindAttributes
  rw [hb]
  exact pure he

theorem requireTag {name : Chars} {v : Value} (hv : v.erase = (Value.symbol name).erase) :
    Yields T [] [] (Option.map Chars.erase · = some name.erase) (require (tagOf v)) := by
  cases v with
  | symbol d => exact pure (congrArg some (Value.symbol.inj hv))
  | null | char _ | vector _ _ _ _ | list _ _ _ _ | pair _ _ _ _ _ _ _ => cases hv

theorem register {name : Chars} {v : Value} (hv : v.erase = (Value.char name).erase) :
    Yields T [] [name] (·.erase = (Value.symbol name).erase) (register v) := by
  cases v with
  | char d =>
    have hd := Value.char.inj hv
    intro s rest _ hs
    refine ⟨.symbol d, _, [d], rfl, congrArg Value.symbol hd, ?_, ?_, congrArg (fun c ↦ [c]) hd⟩
    · exact congrArg (Cursor.mk s.cursor.position) hs
    · rw [ReferenceTable.pushAll_singleton]
  | null | symbol _ | vector _ _ _ _ | list _ _ _ _ | pair _ _ _ _ _ _ _ => cases hv

end Yields

/-- At depth `d` the reading reads every item of at most `n` bytes whose reach stays within
the limit `m`. -/
def Reads (n m d : Nat) (reach : Wire → Nat) (r : Reading Value) : Prop :=
  ∀ {w : Wire} {T : ReferenceTable} {v : Value} {names : List Chars}, w.bytes.length ≤ n →
    d + reach w ≤ m → v.Storable → w.Encodes T v names →
    Yields T w.bytes names (·.erase = v.erase) r

section Parts

variable {n m d : Nat} {nested cdr : Reading Value} {T : ReferenceTable} {names : List Chars}
  (hn : Reads n m d Wire.nesting nested) (hc : Reads n m d Wire.behind cdr)

include hn

theorem yields_attributes {flags : FlagWord} {part? : Option Wire} {as : Attributes}
    (hl : (Wire.bytesOfPart part?).length ≤ n) (hd : d + Wire.insideOfPart part? ≤ m)
    (hb : as.Bound) (hs : Value.AttributesStorable as) (hp : part?.isSome = flags.hasAttributes)
    (he : Wire.EncodesAttributes part? T as names) :
    Yields T (Wire.bytesOfPart part?) names (Value.eraseAttributes · = Value.eraseAttributes as)
      (attributes nested flags) := by
  unfold attributes
  rw [← hp]
  cases part? with
  | none =>
    obtain ⟨rfl, rfl⟩ := he
    exact .pure rfl
  | some w =>
    obtain ⟨hne, he⟩ := he
    have hw := hn hl hd (Attributes.storable_chain hs) he
    exact (hw.bind fun v hv ↦ .bindAttributes (hb.bind_chain hne) hv).cast
      (List.append_nil _) (List.append_nil _)

theorem yields_tag {flags : FlagWord} {part? : Option Wire} {tag? : Option Chars}
    (hl : (Wire.bytesOfPart part?).length ≤ n) (hd : d + Wire.insideOfPart part? ≤ m)
    (hs : ∀ name ∈ tag?, name.Storable) (hp : part?.isSome = flags.hasTag)
    (he : Wire.EncodesTag part? T tag? names) :
    Yields T (Wire.bytesOfPart part?) names (Option.map Chars.erase · = tag?.map Chars.erase)
      (tag nested flags) := by
  unfold tag
  rw [← hp]
  cases part? with
  | none =>
    obtain ⟨rfl, rfl⟩ := he
    exact .pure rfl
  | some w =>
    obtain ⟨name, rfl, he⟩ := he
    have hw := hn (v := .symbol name) hl hd (hs name rfl) he
    exact (hw.bind fun v hv ↦ .requireTag hv).cast (List.append_nil _) (List.append_nil _)

omit hn in
theorem yields_times {γ : Type} {r : Reading α} {inject : β → Value} {f : α → γ} {g : β → γ}
    (hr : ∀ {w : Wire} {T b names}, w.bytes.length ≤ n → d + w.nesting ≤ m → (inject b).Storable →
      w.Encodes T (inject b) names → Yields T w.bytes names (f · = g b) r)
    {ws : List Wire} {bs : List β} (hl : (Wire.bytesOfAll ws).length ≤ n)
    (hd : d + Wire.insideOfAll ws ≤ m) (hs : ∀ b ∈ bs, (inject b).Storable)
    (he : Wire.EncodesAll ws T (bs.map inject) names) :
    Yields T (Wire.bytesOfAll ws) names (List.map f · = bs.map g) (times r ws.length) := by
  induction ws generalizing T bs names with
  | nil =>
    obtain ⟨hbs, rfl⟩ := he
    obtain rfl := List.map_eq_nil_iff.mp hbs
    exact .pure rfl
  | cons w ws ih =>
    obtain ⟨v, rest, names₁, names₂, hw, hws, hbs, rfl⟩ := he
    obtain ⟨b, bs, rfl, rfl, rfl⟩ := List.map_eq_cons_iff.mp hbs
    rw [Wire.bytesOfAll, List.length_append] at hl
    rw [Wire.insideOfAll] at hd
    rw [Wire.bytesOfAll, List.length_cons, times]
    have hdw : d + w.nesting ≤ m := by
      rw [Wire.nesting]
      omega
    have hb := hr (by omega) hdw (hs b List.mem_cons_self) hw
    refine hb.bind fun a ha ↦ ?_
    have has := ih (by omega) (by omega) (fun b hb ↦ hs b (List.mem_cons_of_mem _ hb)) hws
    refine (has.bind fun as has ↦ .pure ?_).cast (List.append_nil _) (List.append_nil _)
    rw [List.map_cons, List.map_cons, ha, has]

variable {e : Setting} {lead : Lead} {v : Value}

omit hn in
theorem yields_char {content? : Option (List UInt8)} {attributes? : Option Wire} (hs : v.Storable)
    (he : (Wire.char lead.flags content? attributes?).Encodes T v names) :
    Yields T (Wire.char lead.flags content? attributes?).payload names (·.erase = v.erase)
      (contentAs e nested cdr lead .char) := by
  obtain ⟨-, hna, rfl, content, rfl, rfl, rfl⟩ := he
  have hdrop : dropAttributes nested lead.flags = pure () := by
    rw [dropAttributes, hna]
    rfl
  refine (Yields.readChars (e.origin lead) hs).bind fun c hc ↦ ?_
  rw [hdrop, pure_bind]
  exact .pure (congrArg Value.char hc)

theorem yields_symbol {name : Wire} (hl : name.bytes.length ≤ n) (hd : d + name.nesting ≤ m)
    (hs : v.Storable) (he : (Wire.symbol lead.flags name).Encodes T v names) :
    Yields T name.bytes names (·.erase = v.erase) (contentAs e nested cdr lead .symbol) := by
  obtain ⟨-, hna, text, he, rfl, rfl⟩ := he
  simp only [contentAs, hna, Bool.false_eq_true, if_false]
  refine ((hn (v := .char text) hl hd hs he).bind fun u hu ↦ ?_).cast
    (List.append_nil _) (List.nil_append _)
  exact .register hu

theorem yields_list {elements : List Wire} {attributes? : Option Wire}
    (hl : (Wire.list lead.flags elements attributes?).payload.length ≤ n)
    (hd : d + (Wire.list lead.flags elements attributes?).inside ≤ m) (hs : v.Storable)
    (he : (Wire.list lead.flags elements attributes?).Encodes T v names) :
    Yields T (Wire.list lead.flags elements attributes?).payload names (·.erase = v.erase)
      (contentAs e nested cdr lead .list) := by
  obtain ⟨-, hp, origin, values, attributes, names₁, names₂, hvs, has, rfl, rfl⟩ := he
  obtain ⟨hlt, hvalues, hb, hattributes⟩ := hs
  rw [Wire.payload, List.length_append, List.length_append] at hl
  rw [Wire.inside] at hd
  rw [← hvs.length] at hlt
  refine (Yields.onCursor Cursor.spells_length hlt).bind_nil fun k hk ↦ ?_
  obtain rfl := hk
  rw [← List.map_id values] at hvs
  have helements := yields_times hn (by omega) (by omega) (fun v ↦ hvalues.of_mem) hvs
  refine helements.bind fun vs hvs ↦ ?_
  have hattrs := yields_attributes hn (by omega) (by omega) hb hattributes hp has
  refine (hattrs.bind fun as has ↦ .pure ?_).cast (List.append_nil _) (List.append_nil _)
  rw [Value.erase, Value.erase, Value.eraseAll_eq_map, Value.eraseAll_eq_map, hvs, has]

theorem yields_string {w : Wire} {text : Chars} (hl : w.bytes.length ≤ n)
    (hd : d + w.nesting ≤ m) (hs : (Value.char text).Storable)
    (he : w.Encodes T (.char text) names) :
    Yields T w.bytes names (·.erase = text.erase) (string nested) := by
  refine ((hn hl hd hs he).bind fun u hu ↦ ?_).cast (List.append_nil _) (List.append_nil _)
  cases u with
  | char c => exact .pure (Value.char.inj hu)
  | null | symbol _ | vector _ _ _ _ | list _ _ _ _ | pair _ _ _ _ _ _ _ => cases hu

theorem yields_strings {elements : List Wire} {attributes? : Option Wire}
    (hl : (Wire.strings lead.flags elements attributes?).payload.length ≤ n)
    (hd : d + (Wire.strings lead.flags elements attributes?).inside ≤ m) (hs : v.Storable)
    (he : (Wire.strings lead.flags elements attributes?).Encodes T v names) :
    Yields T (Wire.strings lead.flags elements attributes?).payload names (·.erase = v.erase)
      (contentAs e nested cdr lead .string) := by
  obtain ⟨-, hp, origin, texts, attributes, names₁, names₂, hvs, has, rfl, rfl⟩ := he
  obtain ⟨⟨hlt, htexts⟩, hb, hattributes⟩ := hs
  rw [Wire.payload, List.length_append, List.length_append] at hl
  rw [Wire.inside] at hd
  have hlength := hvs.length
  rw [List.length_map] at hlength
  rw [Atoms.length, ← hlength] at hlt
  refine (Yields.onCursor Cursor.spells_length hlt).bind_nil fun k hk ↦ ?_
  obtain rfl := hk
  have helements := yields_times (yields_string hn) (by omega) (by omega) (htexts texts rfl) hvs
  refine helements.bind fun cs hcs ↦ ?_
  have hattrs := yields_attributes hn (by omega) (by omega) hb hattributes hp has
  refine (hattrs.bind fun as has ↦ .pure ?_).cast (List.append_nil _) (List.append_nil _)
  rw [Value.erase, Value.erase, Atoms.erase, Atoms.erase, hcs, has]

theorem yields_vector {data : Wire.Data} {attributes? : Option Wire} {r : Cursor.Reader Atoms}
    (hr : atomsReader? data.type = some r)
    (hl : (Wire.atoms lead.flags data attributes?).payload.length ≤ n)
    (hd : d + (Wire.atoms lead.flags data attributes?).inside ≤ m) (hs : v.Storable)
    (he : (Wire.atoms lead.flags data attributes?).Encodes T v names) :
    Yields T (Wire.atoms lead.flags data attributes?).payload names
      (fun u : Value ↦ u.erase = v.erase) (do
        let atoms ← onCursor r
        let attributes ← attributes nested lead.flags
        return Value.vector (e.origin lead) atoms attributes lead.flags.isObject) := by
  obtain ⟨-, hp, origin, attributes, has, rfl⟩ := he
  obtain ⟨⟨hlt, -⟩, hb, hattributes⟩ := hs
  rw [Wire.payload, List.length_append] at hl
  rw [Wire.inside] at hd
  rw [data.length_atoms] at hlt
  refine (Yields.atoms hlt hr).bind_nil fun atoms hatoms ↦ ?_
  have hattrs := yields_attributes hn (by omega) hd hb hattributes hp has
  refine (hattrs.bind fun as has ↦ .pure ?_).cast (List.append_nil _) (List.append_nil _)
  rw [Value.erase, Value.erase, hatoms, has]

include hc

theorem yields_cell {attributes? tag? : Option Wire} {car rest : Wire} {kind : PairKind}
    (hk : lead.flags.type?.bind TypeCode.pairKind? = some kind)
    (hl : (Wire.cell lead.flags attributes? tag? car rest).payload.length ≤ n)
    (hd : d + (Wire.cell lead.flags attributes? tag? car rest).inside ≤ m) (hs : v.Storable)
    (he : (Wire.cell lead.flags attributes? tag? car rest).Encodes T v names) :
    Yields T (Wire.cell lead.flags attributes? tag? car rest).payload names (·.erase = v.erase)
      (cell e nested cdr lead kind) := by
  obtain ⟨hpa, hpt, origin, kind', tag, carValue, cdrValue, attributes, names₁, names₂, names₃,
    names₄, hk', hattrs, htag, hcar, hcdr, rfl, rfl⟩ := he
  obtain rfl := Option.some.inj (hk.symm.trans hk')
  obtain ⟨hstag, hscar, hscdr, hb, hattributes⟩ := hs
  simp only [Wire.payload, List.length_append] at hl
  rw [Wire.inside] at hd
  have hdcar : d + car.nesting ≤ m := by
    rw [Wire.nesting]
    omega
  have hdcdr : d + rest.behind ≤ m := by
    rw [Wire.behind, Wire.nesting]
    omega
  have hattrs := yields_attributes hn (by omega) (by omega) hb hattributes hpa hattrs
  have htag := yields_tag hn (by omega) (by omega) hstag hpt htag
  have hcar := hn (by omega) hdcar hscar hcar
  have hcdr := hc (by omega) hdcdr hscdr hcdr
  refine hattrs.bind fun as has ↦ htag.bind fun name hname ↦ hcar.bind fun u hu ↦
    (hcdr.bind fun u' hu' ↦ .pure ?_).cast (List.append_nil _) (List.append_nil _)
  rw [Value.erase, Value.erase, hname, hu, hu', has]

theorem yields_contentAs {w : Wire} {type : TypeCode} (hw : lead.flags = w.word)
    (ht : lead.flags.type? = some type) (hl : w.payload.length ≤ n) (hd : d + w.inside ≤ m)
    (hs : v.Storable) (he : w.Encodes T v names) :
    Yields T w.payload names (·.erase = v.erase) (contentAs e nested cdr lead type) := by
  cases w with
  | null word =>
    obtain rfl : lead.flags = word := hw
    obtain ⟨ht', rfl, rfl⟩ := he
    rw [ht] at ht'
    obtain ht' | ht' := ht' <;> cases ht' <;> exact .pure rfl
  | reference word index? =>
    obtain rfl : lead.flags = word := hw
    obtain ⟨ht', hi, name, entry, hget, heq, rfl, rfl⟩ := he
    obtain rfl := Option.some.inj (ht.symm.trans ht')
    have herase : entry.erase = name.erase := Chars.erase_eq_iff.mpr (beq_iff_eq.mp heq)
    refine (Yields.readReference hi hget).mono fun u hu ↦ hu.trans ?_
    rw [Value.erase, Value.erase, herase]
  | char word content? attributes? =>
    obtain rfl : lead.flags = word := hw
    obtain rfl := Option.some.inj (ht.symm.trans he.1)
    exact yields_char hs he
  | symbol word name =>
    obtain rfl : lead.flags = word := hw
    obtain rfl := Option.some.inj (ht.symm.trans he.1)
    exact yields_symbol hn hl hd hs he
  | atoms word data attributes? =>
    obtain rfl : lead.flags = word := hw
    obtain rfl := Option.some.inj (ht.symm.trans he.1)
    cases data <;> exact yields_vector hn rfl hl hd hs he
  | strings word elements attributes? =>
    obtain rfl : lead.flags = word := hw
    obtain rfl := Option.some.inj (ht.symm.trans he.1)
    exact yields_strings hn hl hd hs he
  | list word elements attributes? =>
    obtain rfl : lead.flags = word := hw
    obtain rfl := Option.some.inj (ht.symm.trans he.1)
    exact yields_list hn hl hd hs he
  | cell word attributes? tag? car rest =>
    obtain rfl : lead.flags = word := hw
    obtain ⟨kind, hk⟩ := he.pairKind
    have hcell := yields_cell (e := e) hn hc hk hl hd hs he
    have hk : type.pairKind? = some kind := by
      rw [ht] at hk
      exact hk
    cases type <;> cases hk <;> exact hcell

end Parts

theorem yields_content {e : Setting} {n depth : Nat} {nested cdr : Reading Value}
    (hn : Reads n e.maxDepth (depth + 1) Wire.nesting nested)
    (hc : Reads n e.maxDepth (depth + 1) Wire.behind cdr) {lead : Lead} {w : Wire}
    {T : ReferenceTable} {v : Value} {names : List Chars} (hw : lead.flags = w.word)
    (hl : w.payload.length ≤ n) (hd : depth + w.nesting ≤ e.maxDepth) (hs : v.Storable)
    (he : w.Encodes T v names) :
    Yields T w.payload names (·.erase = v.erase) (content e nested cdr depth lead) := by
  obtain ⟨type, ht⟩ := he.type
  rw [← hw] at ht
  rw [Wire.nesting] at hd
  have hlimit : ¬ e.maxDepth ≤ depth := by omega
  have hcontent : content e nested cdr depth lead = get >>= fun s : Progress ↦
      note (.item type s.cursor.position (depth + 1)) >>= fun _ ↦
        contentAs e nested cdr lead type := by
    rw [FlagWord.type?] at ht
    rw [content, ht]
    exact if_neg hlimit
  rw [hcontent]
  refine .position (f := fun p ↦ note (.item type p (depth + 1)) >>= fun _ ↦
    contentAs e nested cdr lead type) fun p ↦ (Yields.note _).bind_nil fun _ _ ↦ ?_
  exact yields_contentAs hn hc hw ht hl (by omega) hs he

/-- Every encoding is read back, by induction on the bytes allowed for. -/
theorem reads_item_rest (e : Setting) (n : Nat) :
    (∀ depth, Reads n e.maxDepth depth Wire.nesting (item e n depth)) ∧
      ∀ depth, Reads n e.maxDepth (depth + 1) Wire.behind (rest e n depth) := by
  induction n with
  | zero =>
    have hno {w : Wire} (h : w.bytes.length ≤ 0) : False := by
      rw [w.bytes_eq, List.length_append, w.word.length_bytes] at h
      omega
    exact ⟨fun _ _ _ _ _ h ↦ (hno h).elim, fun _ _ _ _ _ h ↦ (hno h).elim⟩
  | succ n ih =>
    obtain ⟨hi, hr⟩ := ih
    constructor
    · intro depth w T v names hl hd hs he
      rw [w.bytes_eq, List.length_append, w.word.length_bytes] at hl
      rw [w.bytes_eq, item]
      refine (Yields.readLead w.word).bind_nil fun lead hlead ↦ ?_
      exact yields_content (hi _) (hr _) hlead (by omega) hd hs he
    · intro depth w T v names hl hd hs he
      rw [w.bytes_eq, List.length_append, w.word.length_bytes] at hl
      rw [w.bytes_eq, rest]
      refine (Yields.readLead w.word).bind_nil fun lead hlead ↦ ?_
      cases hk : (TypeCode.ofCode? lead.flags.typeByte).bind TypeCode.pairKind? with
      | some kind =>
        have hcell : w.isCell = true := by
          rw [he.isCell_eq, ← hlead, FlagWord.type?, hk]
          rfl
        rw [Wire.behind, if_pos hcell] at hd
        cases w with
        | cell word attributes? tag? car cdr =>
          obtain rfl : lead.flags = word := hlead
          exact yields_cell (hi _) (hr _) hk (by omega) hd hs he
        | null _ | reference _ _ | char _ _ _ | symbol _ _ | atoms _ _ _ | strings _ _ _
        | list _ _ _ => cases hcell
      | none =>
        have hcell : ¬ w.isCell = true := by
          rw [he.isCell_eq, ← hlead, FlagWord.type?, hk]
          exact Bool.false_ne_true
        rw [Wire.behind, if_neg hcell] at hd
        exact yields_content (hi _) (hr _) hlead (by omega) hd hs he

/-- Whatever way a value was encoded, its bytes are read back as an equal value, and exactly
they are, and the table grows by the symbols that were written. -/
theorem read_encoding {w : Wire} {v : Value} {names : List Chars} {s : Progress} {m : Nat}
    {suffix : List UInt8} (hv : v.Storable) (he : w.Encodes s.table v names) (hm : w.nesting ≤ m)
    (hs : s.cursor.rest = w.bytes ++ suffix) (stream : Nat) :
    ∃ u t entered, read ⟨m, stream⟩ s = .ok u t ∧ (u == v) = true ∧
      t.cursor = ⟨s.cursor.position + w.bytes.length, suffix⟩ ∧
      t.table = s.table.pushAll entered ∧ entered.map Chars.text? = names.map Chars.text? := by
  have hl : w.bytes.length ≤ s.cursor.remaining := by
    rw [Cursor.remaining, hs, List.length_append]
    omega
  have hd : 0 + w.nesting ≤ m := (Nat.zero_add _).symm ▸ hm
  have hy := (reads_item_rest ⟨m, stream⟩ s.cursor.remaining).1 0 hl hd hv he
  obtain ⟨u, t, entered, hr, hu, hc, ht, hn⟩ := hy s suffix rfl hs
  refine ⟨u, t, entered, ?_, Value.same_of_erase hu hv, hc, ht, ?_⟩
  · rw [read_eq_item _ (Nat.le_refl _)]
    exact hr
  · have htext := congrArg (List.map Chars.text?) hn
    rw [List.map_map, List.map_map] at htext
    simpa only [Function.comp_def, Chars.text?_erase] using htext

/-- Two cells that are both tagged `a`, and the first car has an attribute of that name. -/
def taggedTwice : Value :=
  .pair ⟨0, 0⟩ .list (some (.text ⟨0, 0⟩ "a"))
    (.vector ⟨0, 0⟩ (.integer [7]) [("a", .null)] false)
    (.pair ⟨0, 0⟩ .list (some (.text ⟨0, 0⟩ "a")) .null .null [] false) [] false

/-- Only the first tag is a symbol. The attribute and the second tag refer to it, one by a packed
index and one by an index of its own. -/
def taggedTwiceWire : Wire :=
  .cell ⟨0x402⟩ none (some (.symbol ⟨1⟩ (.char ⟨9⟩ (some [97]) none)))
    (.atoms ⟨0x20d⟩ (.integer [7])
      (some (.cell ⟨0x402⟩ none (some (.reference ⟨0x1ff⟩ none)) (.null ⟨0⟩) (.null ⟨254⟩))))
    (.cell ⟨0x402⟩ none (some (.reference ⟨0xff⟩ (some 1))) (.null ⟨0⟩) (.null ⟨254⟩))

theorem storable_taggedTwice : taggedTwice.Storable := by
  have hname : (Utf8.encode "a").length < 2 ^ 31 := by decide
  have htag : ∀ name ∈ some (Chars.text ⟨0, 0⟩ "a"), name.Storable := by
    rintro _ ⟨⟩
    exact hname
  have hbound : Attributes.Bound [("a", .null)] :=
    .inr ⟨.pair ⟨0, 0⟩ .list (some (.text ⟨0, 0⟩ "a")) .null .null [] false, rfl⟩
  exact ⟨htag, ⟨⟨by decide, nofun⟩, hbound, hname, trivial, trivial⟩,
    ⟨htag, trivial, trivial, .inl rfl, trivial⟩, .inl rfl, trivial⟩

theorem encodes_taggedTwice :
    taggedTwiceWire.Encodes .empty taggedTwice [.text ⟨0, 0⟩ "a"] := by
  let a : Chars := .text ⟨0, 0⟩ "a"
  let T : ReferenceTable := (ReferenceTable.empty.pushAll []).pushAll [a]
  have hsymbol : Wire.EncodesTag (some (.symbol ⟨1⟩ (.char ⟨9⟩ (some [97]) none)))
      (ReferenceTable.empty.pushAll []) (some a) [a] :=
    ⟨a, rfl, rfl, rfl, a, ⟨rfl, rfl, rfl, a, rfl, rfl, rfl⟩, rfl, rfl⟩
  have hpacked : Wire.EncodesTag (some (.reference ⟨0x1ff⟩ none)) (T.pushAll []) (some a) [] :=
    ⟨a, rfl, rfl, by decide, a, a, rfl, by decide, rfl, rfl⟩
  have hindex : Wire.EncodesTag (some (.reference ⟨0xff⟩ (some 1)))
      ((T.pushAll []).pushAll []) (some a) [] :=
    ⟨a, rfl, rfl, by decide, a, a, rfl, by decide, rfl, rfl⟩
  have hchain : (Wire.cell ⟨0x402⟩ none (some (.reference ⟨0x1ff⟩ none)) (.null ⟨0⟩)
      (.null ⟨254⟩)).Encodes T (Attributes.chain [("a", .null)]) [] :=
    ⟨rfl, rfl, ⟨0, 0⟩, .list, some a, .null, .null, [], [], [], [], [], rfl, ⟨rfl, rfl⟩, hpacked,
      ⟨.inl rfl, rfl, rfl⟩, ⟨.inr rfl, rfl, rfl⟩, rfl, rfl⟩
  have hcdr : (Wire.cell ⟨0x402⟩ none (some (.reference ⟨0xff⟩ (some 1))) (.null ⟨0⟩)
      (.null ⟨254⟩)).Encodes (T.pushAll [])
      (.pair ⟨0, 0⟩ .list (some a) .null .null [] false) [] :=
    ⟨rfl, rfl, ⟨0, 0⟩, .list, some a, .null, .null, [], [], [], [], [], rfl, ⟨rfl, rfl⟩, hindex,
      ⟨.inl rfl, rfl, rfl⟩, ⟨.inr rfl, rfl, rfl⟩, rfl, rfl⟩
  exact ⟨rfl, rfl, ⟨0, 0⟩, .list, some a, _, _, [], [], [a], [], [], rfl, ⟨rfl, rfl⟩, hsymbol,
    ⟨rfl, rfl, ⟨0, 0⟩, [("a", .null)], ⟨nofun, hchain⟩, rfl⟩, hcdr, rfl, rfl⟩

theorem read_taggedTwice :
    ∃ u t entered, read ⟨4, 0⟩ (.start (taggedTwiceWire.bytes ++ [0]) []) = .ok u t ∧
      (u == taggedTwice) = true ∧ t.cursor = ⟨0 + taggedTwiceWire.bytes.length, [0]⟩ ∧
      t.table = ReferenceTable.empty.pushAll entered ∧
      entered.map Chars.text? = [.text ⟨0, 0⟩ "a"].map Chars.text? :=
  read_encoding storable_taggedTwice encodes_taggedTwice (by decide) rfl 0

end Rds.Encoding
