import Rds.Proofs.Account
import Rds.Proofs.Depth

namespace Rds.Account

open Item Descent Wire

variable {α β : Type} {s t u : Progress} {stream : Nat} {frame w : Wire} {done : List Wire}

structure Opened (lead : Lead) (s u : Progress) : Prop where
  offset : lead.offset = s.cursor.position
  moves : Moves s u lead.flags.bytes []
  symbolic : s.table.Symbolic

section Head

variable {lead : Lead} {type : TypeCode}

theorem Partial.stop (front : List UInt8) (hm : Moves s t (lead.flags.bytes ++ front) [])
    (hf : ∀ w : Wire, w.WellFormed → w.word = lead.flags → ∀ more, front = w.head ++ more →
      more = [] ∧ (w.head = [] ∨ w.form = .reference)) : Partial stream s t := by
  refine ⟨.stopped (lead.flags.bytes ++ front), fun w hw more he ↦ ?_, hm⟩
  obtain ⟨hword, hfront⟩ := word_cancel he
  exact hf w hw hword.symm more hfront

theorem Opened.stop (h : Opened lead s u) : Partial stream s u := by
  refine .stop [] (h.moves.skip (.refl u)) fun w _ _ more he ↦ ?_
  obtain ⟨hhead, hmore⟩ := List.append_eq_nil_iff.mp he.symm
  exact ⟨hmore, .inl hhead⟩

/-- A reading of the bytes in front of the items inside. Where these bytes are there, only that
of a reference fails. -/
theorem Opened.head (h : Opened lead s u) {r : Reading α} {Q : α → Progress → Prop}
    (hr : Skips r)
    (hx : ∀ w : Wire, w.WellFormed → w.word = lead.flags → ∀ back err t,
      u.cursor.rest = w.head ++ back → r u = .error err t →
        w.form = .reference ∧ t.cursor.rest = back)
    (hq : ∀ a t front, r u = .ok a t → Moves s t (lead.flags.bytes ++ front) [] → Q a t) :
    Ends r u Q (Partial stream s) := by
  obtain ⟨front, hm⟩ := hr u
  refine .intro (fun a t hs ↦ ?_) fun err t hs ↦ ?_
  · rw [hs] at hm
    exact hq a t front hs (h.moves.skip hm)
  · rw [hs] at hm
    refine .stop front (h.moves.skip hm) fun w hw hword more he ↦ ?_
    have hrest : u.cursor.rest = w.head ++ (more ++ t.cursor.rest) := by
      rw [← List.append_assoc, ← he]
      exact hm.rest
    obtain ⟨hform, hback⟩ := hx w hw hword _ err t hrest hs
    exact ⟨List.append_left_eq_self.mp hback.symm, .inr hform⟩

theorem form_of_type (hw : w.WellFormed) (hword : w.word = lead.flags)
    (ht : lead.flags.type? = some type) : w.form = formOf type := by
  have hform := form_eq hw
  rw [hword, ht] at hform
  exact (Option.some.inj hform).symm

theorem length_read {n : Nat} {back : List UInt8} (hn : n < 2 ^ 31)
    (hs : s.cursor.rest = lengthBytes n ++ back) : ∃ t, onCursor Cursor.length s = .ok n t :=
  ⟨_, onCursor_read Cursor.spells_length hn hs⟩

theorem Opened.length (h : Opened lead s u) (ht : lead.flags.type? = some type)
    (hl : formOf type = .list ∨ formOf type = .strings) :
    Ends (onCursor Cursor.length) u
      (fun n t ↦ n < 2 ^ 31 ∧ Moves s t (lead.flags.bytes ++ lengthBytes n) [])
      (Partial stream s) := by
  refine h.head (skips_onCursor Locality.compositional_local.length) ?_ ?_
  · intro w hw hword back err t hrest he
    have hform := form_of_type hw hword ht
    have : ∃ n, n < 2 ^ 31 ∧ w.head = lengthBytes n := by
      cases w with
      | strings _ elements _ => exact ⟨elements.length, hw.2.1, rfl⟩
      | list _ elements _ => exact ⟨elements.length, hw.2.1, rfl⟩
      | _ => rw [← hform] at hl; obtain hl | hl := hl <;> cases hl
    obtain ⟨n, hn, hhead⟩ := this
    obtain ⟨t', ht'⟩ := length_read hn (hhead ▸ hrest)
    rw [ht'] at he
    cases he
  · intro n t front hn hm
    obtain ⟨hlt, hrest⟩ := onCursor_spelled Cursor.spells_length hn
    refine ⟨hlt, hm.of_rest ?_⟩
    rw [h.moves.rest, hrest, List.append_assoc]

theorem readChars_read (origin : Origin) {content? : Option (List UInt8)} {back : List UInt8}
    (hc : ∀ bytes ∈ content?, bytes.length < 2 ^ 31)
    (hs : s.cursor.rest = contentBytes content? ++ back) :
    ∃ t, readChars origin s = .ok (charsOf origin content?) t ∧ t.cursor.rest = back ∧
      t.table = s.table := by
  cases content? with
  | none =>
    rw [readChars, EStateM.bind_of_ok (onCursor_read Cursor.spells_int32 trivial hs), if_pos rfl]
    exact ⟨_, rfl, rfl, rfl⟩
  | some bytes =>
    rw [contentBytes, List.append_assoc] at hs
    exact ⟨_, readChars_payload origin (hc bytes rfl) hs, rfl, rfl⟩

theorem Opened.chars (h : Opened lead s u) (ht : lead.flags.type? = some .char)
    (origin : Origin) :
    Ends (readChars origin) u
      (fun content t ↦ ∃ content? : Option (List UInt8), content = charsOf origin content? ∧
        (∀ bytes ∈ content?, bytes.length < 2 ^ 31) ∧
        Moves s t (lead.flags.bytes ++ contentBytes content?) [])
      (Partial stream s) := by
  refine h.head (skips_readChars origin) ?_ ?_
  · intro w hw hword back err t hrest he
    have hform := form_of_type hw hword ht
    cases w with
    | char _ content? _ =>
      obtain ⟨t', ht', -⟩ := readChars_read origin hw.2.1 hrest
      rw [ht'] at he
      cases he
    | _ => cases hform
  · intro content t front hs hm
    obtain ⟨content?, hc, hrest⟩ := readChars_spelled hs
    obtain ⟨t', ht', -⟩ := readChars_read origin hc hrest
    rw [ht'] at hs
    cases hs
    refine ⟨content?, rfl, hc, hm.of_rest ?_⟩
    rw [h.moves.rest, hrest, List.append_assoc]

theorem formOf_atoms {r : Cursor.Reader Atoms} (hr : atomsReader? type = some r) :
    formOf type = .atoms := by
  cases type with
  | logical | integer | double | complex | raw => rfl
  | _ => cases hr

theorem Opened.atoms (h : Opened lead s u) (ht : lead.flags.type? = some type)
    {r : Cursor.Reader Atoms} (hr : atomsReader? type = some r) :
    Ends (onCursor r) u
      (fun atoms t ↦ ∃ data : Data, atoms = data.atoms ∧ data.type = type ∧
        data.length < 2 ^ 31 ∧ Moves s t (lead.flags.bytes ++ data.bytes) [])
      (Partial stream s) := by
  have hread (data : Data) (hd : data.type = type) (hl : data.length < 2 ^ 31) (back : List UInt8)
      (hs : u.cursor.rest = data.bytes ++ back) : ∃ t, onCursor r u = .ok data.atoms t :=
    ⟨_, Data.onCursor_read hl (hd ▸ hr) hs⟩
  refine h.head (skips_onCursor (Locality.compositional_local.atomsReader hr)) ?_ ?_
  · intro w hw hword back err t hrest he
    have hform := form_of_type hw hword ht
    rw [formOf_atoms hr] at hform
    cases w with
    | atoms word data _ =>
      obtain rfl : word = lead.flags := hword
      obtain ⟨htype, hl, -⟩ := hw
      rw [ht] at htype
      obtain ⟨t', ht'⟩ := hread data (Option.some.inj htype).symm hl back hrest
      rw [ht'] at he
      cases he
    | _ => cases hform
  · intro atoms t front hs hm
    obtain ⟨d, hd, rfl⟩ := onCursor_eq_ok hs
    obtain ⟨data, htype, hl, hrest⟩ := Data.spelled hr hd
    obtain ⟨t', ht'⟩ := hread data htype hl _ hrest
    rw [ht'] at hs
    cases hs
    refine ⟨data, rfl, htype, hl, hm.of_rest ?_⟩
    rw [h.moves.rest, hrest, List.append_assoc]

theorem readReference_eq {flags : FlagWord} {index? : Option Int32} {back : List UInt8}
    (hi : index?.isSome ↔ flags.packedIndex = 0)
    (hs : s.cursor.rest = indexBytes index? ++ back) :
    readReference flags s = require (s.table.resolve (index?.getD flags.packedIndex))
      { s with cursor := ⟨s.cursor.position + (indexBytes index?).length, back⟩ } := by
  obtain ⟨⟨position, bytes⟩, table, log⟩ := s
  obtain rfl := hs
  unfold readReference
  cases index? with
  | none =>
    have hp : ¬ flags.packedIndex = 0 := fun h ↦ absurd (hi.mpr h) nofun
    rw [if_neg hp]
    rfl
  | some index =>
    rw [if_pos (hi.mp rfl), EStateM.bind_of_ok (onCursor_read Cursor.spells_int32 trivial rfl)]
    rfl

theorem require_error {checked : Except Error α} {err : Error}
    (h : require checked s = .error err t) : t = s := by
  cases checked <;> cases h
  rfl

theorem resolve_eq {T : ReferenceTable} {index : Int32} {v : Value}
    (h : require (T.resolve index) s = .ok v t) : T.get? index = some v := by
  unfold ReferenceTable.resolve at h
  cases hv : T.get? index with
  | none =>
    rw [hv] at h
    cases h
  | some u =>
    rw [hv] at h
    cases h
    rfl

theorem Opened.reference (h : Opened lead s u) (ht : lead.flags.type? = some .reference) :
    Ends (readReference lead.flags) u (Whole stream s) (Partial stream s) := by
  refine h.head (skips_readReference _) ?_ ?_
  · intro w hw hword back err t hrest he
    have hform := form_of_type hw hword ht
    cases w with
    | reference word index? =>
      obtain rfl : word = lead.flags := hword
      rw [readReference_eq hw.2 hrest] at he
      obtain rfl := require_error he
      exact ⟨rfl, rfl⟩
    | _ => cases hform
  · intro v t front hs hm
    obtain ⟨index?, hi, hrest⟩ := readReference_spelled hs
    rw [readReference_eq hi hrest] at hs
    refine ⟨.reference lead.flags index?, ⟨ht, hi⟩, ?_, fun T hT ↦ ?_⟩
    · rw [names_all _ fun h ↦ by cases h]
      refine hm.of_rest ?_
      rw [h.moves.rest, hrest, Wire.bytes, List.append_assoc]
    · have hu : u.table = t.table := h.moves.table.trans hm.table.symm
      exact ReferenceTable.get?_extends (hu ▸ hT) (resolve_eq hs)

end Head

variable (stream) in
def Accounted (r : Reading Value) : Prop :=
  ∀ s, s.table.Symbolic → Ends r s (Whole stream s) (Partial stream s)

/-- In every table that goes on from `T₀` the meaning is `a`. -/
def Known (T₀ : ReferenceTable) (meaning : ReferenceTable → Option α) (a : α) : Prop :=
  ∀ T, T₀.Extends T → meaning T = some a

theorem Known.mono {T₀ T₁ : ReferenceTable} {meaning : ReferenceTable → Option α} {a : α}
    (h : Known T₀ meaning a) (hT : T₀.Extends T₁) : Known T₁ meaning a :=
  fun T hT' ↦ h T (hT.trans hT')

theorem Midway.grows {ws : List Wire} (h : Midway stream s frame done t)
    (h' : Midway stream s frame (done ++ ws) u) : t.table.Extends u.table := by
  rw [h.moves.table, h'.moves.table, allOf_append, names_append, ReferenceTable.pushAll_append]
  exact ReferenceTable.extends_pushAll _ _

theorem Midway.note (h : Midway stream s frame done t) (event : Event) :
    Midway stream s frame done { t with log := event :: t.log } :=
  ⟨h.symbolic, h.frame_wellFormed, h.done_wellFormed, h.moves.rest, h.moves.position, h.moves.table⟩

theorem form_ne_char {T : ReferenceTable} {p : Nat} {v : Value}
    (hv : w.value? stream T p = some v) (hchar : ∀ content, v ≠ .char content) :
    w.form ≠ .char := by
  intro hform
  cases w with
  | char word content? attributes? =>
    cases hv
    exact hchar _ rfl
  | _ => cases hform

section Parts

variable {nested cdr : Reading Value} (hn : Accounted stream nested)

theorem ends_times {r : Reading α} {f : α → Value}
    (hr : ∀ done t, Midway stream s frame done t → done.length < frame.parts.length →
      Ends r t (fun a u ↦ ∃ w, Midway stream s frame (done ++ [w]) u ∧
        Known u.table (w.value? stream · t.cursor.position) (f a)) (Partial stream s))
    {n : Nat} (h : Midway stream s frame done t) (hl : done.length + n ≤ frame.parts.length) :
    Ends (times r n) t (fun as u ↦ ∃ ws : List Wire, ws.length = n ∧
      Midway stream s frame (done ++ ws) u ∧
        Known u.table (values? stream · ws t.cursor.position) (as.map f)) (Partial stream s) := by
  induction n generalizing done t with
  | zero => exact .pure ⟨[], rfl, (List.append_nil done).symm ▸ h, fun _ _ ↦ rfl⟩
  | succ n ih =>
    refine (hr done t h (by omega)).bind ?_
    rintro a u ⟨w, hw, hv⟩
    refine (ih hw (by rw [List.length_append, List.length_singleton]; omega)).bind ?_
    rintro as u' ⟨ws, rfl, hws, hvs⟩
    have hposition : u.cursor.position = t.cursor.position + w.bytes.length := by
      rw [hw.position_eq, h.position_eq, bytesOfAll_append, List.length_append,
        bytesOfAll_singleton, Nat.add_assoc]
    refine .pure ⟨w :: ws, rfl, ?_, fun T hT ↦ ?_⟩
    · rw [List.append_assoc] at hws
      exact hws
    · have hvT : w.value? stream T t.cursor.position = some (f a) := hv.mono (hw.grows hws) T hT
      have hvsT : values? stream T ws u.cursor.position = some (as.map f) := hvs T hT
      change values? stream T (w :: ws) t.cursor.position = some (f a :: as.map f)
      rw [values?, hvT, ← hposition, hvsT]
      rfl

include hn

theorem ends_part (h : Midway stream s frame done t) (hl : done.length < frame.parts.length) :
    Ends nested t (fun v u ↦ ∃ w, Midway stream s frame (done ++ [w]) u ∧
      Known u.table (w.value? stream · t.cursor.position) v) (Partial stream s) := by
  have hend := hn t h.symbolic_table
  refine .intro (fun v u hs ↦ ?_) fun err u hs ↦ ?_
  · obtain ⟨w, hw, hm, hv⟩ := hend.of_ok hs
    exact ⟨w, h.add hw hm, hv⟩
  · exact h.tear hl (hend.of_error hs)

theorem ends_attributes (flags : FlagWord) (h : Midway stream s frame done t)
    (hl : flags.hasAttributes = true → done.length < frame.parts.length)
    (hf : flags.hasAttributes = true → ∀ w, (done ++ [w]).length = frame.parts.length →
      Refuses frame (done ++ [w])) :
    Ends (attributes nested flags) t (fun as u ↦ ∃ part? : Option Wire,
      part?.isSome = flags.hasAttributes ∧ Midway stream s frame (done ++ part?.toList) u ∧
        Known u.table (attributeSet? stream · part? t.cursor.position) as) (Partial stream s) := by
  unfold attributes
  cases hb : flags.hasAttributes with
  | false => exact .pure ⟨none, rfl, (List.append_nil done).symm ▸ h, fun _ _ ↦ rfl⟩
  | true =>
    refine (ends_part hn h (hl hb)).bind ?_
    rintro v u ⟨w, hw, hv⟩
    unfold bindAttributes
    split
    · next as has =>
      refine .pure ⟨some w, rfl, hw, fun T hT ↦ ?_⟩
      have hvT : w.value? stream T t.cursor.position = some v := hv T hT
      change attributeSet? stream T (some w) t.cursor.position = some as
      rw [attributeSet?, hvT]
      exact congrArg Except.toOption has
    · refine .throw (hw.refuse ?_ (hf hb w))
      rw [List.length_append]
      exact hl hb

theorem ends_tag (flags : FlagWord) (h : Midway stream s frame done t)
    (hl : flags.hasTag = true → done.length + 1 < frame.parts.length) :
    Ends (tag nested flags) t (fun name u ↦ ∃ part? : Option Wire,
      part?.isSome = flags.hasTag ∧ Midway stream s frame (done ++ part?.toList) u ∧
        Known u.table (tagName? stream · part? t.cursor.position) name) (Partial stream s) := by
  unfold tag
  cases hb : flags.hasTag with
  | false => exact .pure ⟨none, rfl, (List.append_nil done).symm ▸ h, fun _ _ ↦ rfl⟩
  | true =>
    have hlt := hl hb
    refine (ends_part hn h (by omega)).bind ?_
    rintro v u ⟨w, hw, hv⟩
    unfold require
    split
    · next name hname =>
      refine .pure ⟨some w, rfl, hw, fun T hT ↦ ?_⟩
      have hvT : w.value? stream T t.cursor.position = some v := hv T hT
      change tagName? stream T (some w) t.cursor.position = some name
      rw [tagName?, hvT]
      exact congrArg Except.toOption hname
    · rw [← List.length_singleton (a := w), ← List.length_append] at hlt
      exact .throw (hw.refuse (Nat.le_of_lt hlt) fun he ↦ absurd he (Nat.ne_of_lt hlt))

theorem ends_string (h : Midway stream s frame done t) (hf : frame.form = .strings)
    (hl : done.length < frame.parts.length) :
    Ends (string nested) t (fun content u ↦ ∃ w, Midway stream s frame (done ++ [w]) u ∧
      Known u.table (w.value? stream · t.cursor.position) (.char content)) (Partial stream s) := by
  refine (ends_part hn h hl).bind ?_
  rintro v u ⟨w, hw, hv⟩
  split
  · exact .pure ⟨w, hw, hv⟩
  · next hchar =>
    refine .throw (hw.refuse ?_ fun _ ↦ ?_)
    · rw [List.length_append]
      exact hl
    · rw [Refuses, hf]
      exact .inr ⟨w, List.mem_append_right _ (List.mem_singleton_self w),
        form_ne_char (hv _ (.refl _)) hchar⟩

theorem ends_dropAttributes (flags : FlagWord) (h : Midway stream s frame done t)
    (hl : flags.hasAttributes = true → done.length < frame.parts.length) :
    Ends (dropAttributes nested flags) t (fun _ u ↦ ∃ part? : Option Wire,
      part?.isSome = flags.hasAttributes ∧ Midway stream s frame (done ++ part?.toList) u)
      (Partial stream s) := by
  unfold dropAttributes
  cases hb : flags.hasAttributes with
  | false => exact .pure ⟨none, rfl, (List.append_nil done).symm ▸ h⟩
  | true =>
    refine (ends_part hn (h.note .discardedAttributes) (hl hb)).bind ?_
    rintro v u ⟨w, hw, _⟩
    exact .pure ⟨some w, rfl, hw⟩

end Parts

theorem Midway.whole {v : Value} (h : Midway stream s frame done t) (hw : w.WellFormed)
    (hword : w.word = frame.word) (hhead : w.head = frame.head) (hparts : w.parts = done)
    (hf : w.form ≠ .symbol) (hv : Known t.table (w.value? stream · s.cursor.position) v) :
    Whole stream s v t :=
  ⟨w, hw, by rw [names_all _ hf]; exact h.finish hword hhead hparts, hv⟩

def filler : Wire := .null ⟨254⟩

def fillerPart (present : Bool) : Option Wire := if present then some filler else none

theorem wellFormed_filler : filler.WellFormed := .inr rfl

theorem isSome_fillerPart (present : Bool) : (fillerPart present).isSome = present := by
  cases present <;> rfl

theorem wellFormed_fillerPart (present : Bool) : PartWellFormed (fillerPart present) := by
  cases present
  · exact trivial
  · exact wellFormed_filler

theorem wellFormed_fillers (n : Nat) : AllWellFormed (List.replicate n filler) :=
  allWellFormed_iff.mpr fun _ hw ↦ (List.mem_replicate.mp hw).2 ▸ wellFormed_filler

structure Row (flags : FlagWord) (row : List Wire → Option Wire → Wire) : Prop where
  word : ∀ ws part?, (row ws part?).word = flags
  head : ∀ ws part?, (row ws part?).head = lengthBytes ws.length
  parts : ∀ ws part?, (row ws part?).parts = ws ++ part?.toList
  form : ∀ ws part?, (row ws part?).form = .list ∨ (row ws part?).form = .strings
  wellFormed : ∀ ws part?, ws.length < 2 ^ 31 → AllWellFormed ws →
    part?.isSome = flags.hasAttributes → PartWellFormed part? → (row ws part?).WellFormed

theorem row_list {flags : FlagWord} (ht : flags.type? = some .list) :
    Row flags (.list flags) where
  word _ _ := rfl
  head _ _ := rfl
  parts _ _ := rfl
  form _ _ := .inl rfl
  wellFormed _ _ hl hws hp hpart := ⟨ht, hl, hws, hp, hpart⟩

theorem row_strings {flags : FlagWord} (ht : flags.type? = some .string) :
    Row flags (.strings flags) where
  word _ _ := rfl
  head _ _ := rfl
  parts _ _ := rfl
  form _ _ := .inr rfl
  wellFormed _ _ hl hws hp hpart := ⟨ht, hl, hws, hp, hpart⟩

section Content

variable {e : Setting} {nested cdr : Reading Value} {lead : Lead} {type : TypeCode}
  (hn : Accounted e.stream nested)

include hn

theorem ends_char (cdr : Reading Value) (h : Opened lead s u)
    (ht : lead.flags.type? = some .char) :
    Ends (contentAs e nested cdr lead .char) u (Whole e.stream s) (Partial e.stream s) := by
  unfold contentAs
  refine (h.chars ht (e.origin lead)).bind ?_
  rintro _ t ⟨content?, rfl, hc, hm⟩
  have hframe : (Wire.char lead.flags content? (fillerPart lead.flags.hasAttributes)).WellFormed :=
    ⟨ht, hc, isSome_fillerPart _, wellFormed_fillerPart _⟩
  refine (ends_dropAttributes hn lead.flags (.start h.symbolic hframe hm) fun hb ↦ ?_).bind ?_
  · rw [Wire.parts, hb]
    exact Nat.one_pos
  · rintro _ u' ⟨part?, hp, hpart⟩
    have hw := partWellFormed_iff.mpr (allWellFormed_iff.mp hpart.done_wellFormed)
    refine .pure (hpart.whole (w := .char lead.flags content? part?) ⟨ht, hc, hp, hw⟩ rfl rfl rfl
      (fun h ↦ by cases h) fun T _ ↦ ?_)
    change some (Value.char _) = _
    rw [Setting.origin, h.offset]

theorem ends_symbol (cdr : Reading Value) (h : Opened lead s u)
    (ht : lead.flags.type? = some .symbol) :
    Ends (contentAs e nested cdr lead .symbol) u (Whole e.stream s) (Partial e.stream s) := by
  simp only [contentAs]
  split
  · exact .throw h.stop
  next hb =>
  have hna : lead.flags.hasAttributes = false := eq_false_of_ne_true hb
  have hframe : (Wire.symbol lead.flags filler).WellFormed := ⟨ht, hna, wellFormed_filler⟩
  have hstart : Midway e.stream s _ [] u := .start h.symbolic hframe (h.moves.skip (.refl u))
  refine (ends_part hn hstart Nat.one_pos).bind ?_
  rintro v u' ⟨w, hw, hv⟩
  have hvu : w.value? e.stream u'.table u.cursor.position = some v := hv _ (.refl _)
  unfold register
  split
  · next name =>
    obtain ⟨word, content?, attributes?, rfl, rfl⟩ := eq_char_of_value? hw.symbolic_table hvu
    have hwf := (allWellFormed_iff.mp hw.done_wellFormed) _ (List.mem_singleton_self _)
    have hposition : u.cursor.position = s.cursor.position + 4 := by
      rw [h.moves.position, FlagWord.length_bytes]
    refine ⟨.symbol lead.flags (.char word content? attributes?), ⟨ht, hna, hwf⟩, ?_, fun T _ ↦ ?_⟩
    · have hm := hw.finish (w := .symbol lead.flags (.char word content? attributes?)) rfl rfl rfl
      rw [Place.all_eq_allOf, names_append]
      refine hm.enter rfl ?_
      rw [hposition]
    · rw [hposition]
      rfl
  · next hchar =>
    refine .throw (hw.refuse (Nat.le_refl 1) fun _ x hx ↦ ?_)
    obtain rfl := List.mem_singleton.mp hx
    exact form_ne_char hvu hchar

theorem ends_row {row : List Wire → Option Wire → Wire} (hrow : Row lead.flags row)
    {r : Reading α} {f : α → Value}
    (hr : ∀ ws part? done t, Midway e.stream s (row ws part?) done t →
      done.length < (row ws part?).parts.length →
        Ends r t (fun a u ↦ ∃ w, Midway e.stream s (row ws part?) (done ++ [w]) u ∧
          Known u.table (w.value? e.stream · t.cursor.position) (f a)) (Partial e.stream s))
    {build : List α → Attributes → Value}
    (hvalue : ∀ T ws part? vs as,
      values? e.stream T ws (elementsAt ws s.cursor.position) = some (vs.map f) →
      attributeSet? e.stream T part?
        (elementsAt ws s.cursor.position + (bytesOfAll ws).length) = some as →
      (row ws part?).value? e.stream T s.cursor.position = some (build vs as))
    (h : Opened lead s u) (ht : lead.flags.type? = some type)
    (hform : formOf type = .list ∨ formOf type = .strings) :
    Ends (do
      let vs ← times r (← onCursor Cursor.length)
      let as ← attributes nested lead.flags
      return build vs as) u (Whole e.stream s) (Partial e.stream s) := by
  refine (h.length ht hform).bind ?_
  rintro n t ⟨hlt, hm⟩
  let frame : Wire := row (.replicate n filler) (fillerPart lead.flags.hasAttributes)
  have hframe : frame.WellFormed := hrow.wellFormed _ _ (by rwa [List.length_replicate])
    (wellFormed_fillers n) (isSome_fillerPart _) (wellFormed_fillerPart _)
  have hword : frame.word = lead.flags := hrow.word _ _
  have hhead : frame.head = lengthBytes n := by
    rw [hrow.head, List.length_replicate]
  have hparts : frame.parts.length = n + (fillerPart lead.flags.hasAttributes).toList.length := by
    rw [hrow.parts, List.length_append, List.length_replicate]
  have hstart : Midway e.stream s frame [] t := by
    refine .start h.symbolic hframe ?_
    rw [hword, hhead]
    exact hm
  have hrefuses (hb : lead.flags.hasAttributes = true) (done : List Wire) : Refuses frame done := by
    have hb' : frame.word.hasAttributes = true := hword ▸ hb
    rw [Refuses]
    rcases hrow.form (.replicate n filler) (fillerPart lead.flags.hasAttributes) with hf | hf
    · rw [hf]
      exact hb'
    · rw [hf]
      exact .inl hb'
  refine (ends_times (hr _ _) hstart (by rw [hparts, List.length_nil]; omega)).bind ?_
  rintro vs t₁ ⟨ws, rfl, h₁, hvs⟩
  refine (ends_attributes hn lead.flags h₁ (fun hb ↦ ?_) fun hb w _ ↦ hrefuses hb _).bind ?_
  · rw [hparts, hb]
    exact Nat.lt_succ_self _
  rintro as t₂ ⟨part?, hp, h₂, has⟩
  have hw := allWellFormed_iff.mp h₂.done_wellFormed
  rw [List.nil_append, List.forall_mem_append, ← allWellFormed_iff, ← partWellFormed_iff] at hw
  refine .pure (h₂.whole (hrow.wellFormed ws part? hlt hw.1 hp hw.2) ?_ ?_ ?_ ?_ fun T hT ↦ ?_)
  · rw [hrow.word, hword]
  · rw [hrow.head, hhead]
  · rw [hrow.parts, List.nil_append]
  · intro h
    rcases hrow.form ws part? with hf | hf <;> cases hf.symm.trans h
  · have hvsT := hvs.mono (h₁.grows h₂) T hT
    have hasT := has T hT
    have hopening : frame.opening s.cursor.position = elementsAt ws s.cursor.position := by
      rw [opening, hhead, elementsAt]
    rw [hstart.position_eq, hopening] at hvsT
    rw [h₁.position_eq, hopening, List.nil_append] at hasT
    exact hvalue T ws part? vs as hvsT hasT

theorem ends_list (cdr : Reading Value) (h : Opened lead s u)
    (ht : lead.flags.type? = some .list) :
    Ends (contentAs e nested cdr lead .list) u (Whole e.stream s) (Partial e.stream s) := by
  refine ends_row hn (f := id) (row_list ht) (fun _ _ _ _ h hl ↦ ends_part hn h hl) ?_ h ht ?_
  · intro T ws part? vs as hvs has
    rw [List.map_id] at hvs
    rw [value?, Setting.origin, h.offset]
    exact Option.bind_eq_some_iff.mpr ⟨vs, hvs, Option.bind_eq_some_iff.mpr ⟨as, has, rfl⟩⟩
  · exact .inl rfl

theorem ends_strings (cdr : Reading Value) (h : Opened lead s u)
    (ht : lead.flags.type? = some .string) :
    Ends (contentAs e nested cdr lead .string) u (Whole e.stream s) (Partial e.stream s) := by
  have hstring (ws : List Wire) (part? : Option Wire) (done : List Wire) (t : Progress)
      (h : Midway e.stream s (.strings lead.flags ws part?) done t)
      (hl : done.length < (Wire.strings lead.flags ws part?).parts.length) :=
    ends_string hn h rfl hl
  refine ends_row hn (row_strings ht) hstring ?_ h ht (.inr rfl)
  intro T ws part? contents as hvs has
  rw [value?, Setting.origin, h.offset]
  exact Option.bind_eq_some_iff.mpr ⟨_, hvs, Option.bind_eq_some_iff.mpr
    ⟨contents, Value.mapM_chars? contents, Option.bind_eq_some_iff.mpr ⟨as, has, rfl⟩⟩⟩

theorem ends_vector {r : Cursor.Reader Atoms} (hr : atomsReader? type = some r)
    (h : Opened lead s u) (ht : lead.flags.type? = some type) :
    Ends (do
      let atoms ← onCursor r
      let attributes ← attributes nested lead.flags
      return .vector (e.origin lead) atoms attributes lead.flags.isObject) u
      (Whole e.stream s) (Partial e.stream s) := by
  refine (h.atoms ht hr).bind ?_
  rintro _ t ⟨data, rfl, rfl, hlt, hm⟩
  have hframe : (Wire.atoms lead.flags data (fillerPart lead.flags.hasAttributes)).WellFormed :=
    ⟨ht, hlt, isSome_fillerPart _, wellFormed_fillerPart _⟩
  have hstart : Midway e.stream s _ [] t := .start h.symbolic hframe hm
  refine (ends_attributes hn lead.flags hstart (fun hb ↦ ?_) fun hb w _ ↦ hb).bind ?_
  · rw [Wire.parts, hb]
    exact Nat.one_pos
  · rintro as t₁ ⟨part?, hp, h₁, has⟩
    have hw := partWellFormed_iff.mpr (allWellFormed_iff.mp h₁.done_wellFormed)
    refine .pure (h₁.whole (w := .atoms lead.flags data part?) ⟨ht, hlt, hp, hw⟩ rfl rfl rfl
      (fun h ↦ by cases h) fun T hT ↦ ?_)
    have hasT := has T hT
    rw [hstart.position_eq] at hasT
    rw [Setting.origin, h.offset]
    exact Option.bind_eq_some_iff.mpr ⟨as, hasT, rfl⟩

variable (hc : Accounted e.stream cdr)

include hc

theorem ends_cell {kind : PairKind} (h : Opened lead s u)
    (hk : lead.flags.type?.bind TypeCode.pairKind? = some kind) :
    Ends (cell e nested cdr lead kind) u (Whole e.stream s) (Partial e.stream s) := by
  let frame : Wire := .cell lead.flags (fillerPart lead.flags.hasAttributes)
    (fillerPart lead.flags.hasTag) filler filler
  have hframe : frame.WellFormed := ⟨⟨kind, hk⟩, isSome_fillerPart _, wellFormed_fillerPart _,
    isSome_fillerPart _, wellFormed_fillerPart _, wellFormed_filler, wellFormed_filler⟩
  have hstart : Midway e.stream s frame [] u := .start h.symbolic hframe (h.moves.skip (.refl u))
  have hparts : frame.parts.length = (fillerPart lead.flags.hasAttributes).toList.length +
      ((fillerPart lead.flags.hasTag).toList.length + 2) := by
    rw [Wire.parts, List.length_append, List.length_append]
    rfl
  have hform : frame.form ≠ .symbol := fun h ↦ by cases h
  have hlength (present : Bool) : (fillerPart present).toList.length = present.toNat := by
    cases present <;> rfl
  rw [hlength, hlength] at hparts
  unfold Descent.cell
  refine (ends_attributes hn lead.flags hstart (fun _ ↦ ?_) fun _ w he ↦ ?_).bind ?_
  · rw [hparts, List.length_nil]
    omega
  · rw [hparts, List.length_append, List.length_nil, List.length_singleton] at he
    omega
  rintro as t₁ ⟨attributes?, ha, h₁, has⟩
  have hl₁ : ([] ++ attributes?.toList).length = lead.flags.hasAttributes.toNat := by
    rw [← ha]
    cases attributes? <;> rfl
  refine (ends_tag hn lead.flags h₁ fun hb ↦ ?_).bind ?_
  · rw [hparts, hl₁, hb, Bool.toNat_true]
    omega
  rintro name t₂ ⟨tag?, ht, h₂, hname⟩
  have hl₂ : ([] ++ attributes?.toList ++ tag?.toList).length =
      lead.flags.hasAttributes.toNat + lead.flags.hasTag.toNat := by
    rw [List.length_append, hl₁, ← ht]
    cases tag? <;> rfl
  refine (ends_part hn h₂ (by omega)).bind ?_
  rintro car t₃ ⟨w, h₃, hcar⟩
  refine (ends_part hc h₃ ?_).bind ?_
  · rw [List.length_append, hl₂, hparts, List.length_singleton]
    omega
  rintro rest t₄ ⟨w', h₄, hrest⟩
  have hw := allWellFormed_iff.mp h₄.done_wellFormed
  refine .pure (h₄.whole (w := .cell lead.flags attributes? tag? w w') ?_ rfl rfl ?_ hform
    fun T hT ↦ ?_)
  · simp only [List.nil_append, List.forall_mem_append, List.forall_mem_singleton] at hw
    obtain ⟨⟨⟨hwa, hwt⟩, hwcar⟩, hwcdr⟩ := hw
    exact ⟨⟨kind, hk⟩, ha, partWellFormed_iff.mpr hwa, ht, partWellFormed_iff.mpr hwt, hwcar, hwcdr⟩
  · simp only [Wire.parts, List.nil_append, List.append_assoc, List.cons_append]
  · have hasT := has.mono ((h₁.grows h₂).trans ((h₂.grows h₃).trans (h₃.grows h₄))) T hT
    have hnameT := hname.mono ((h₂.grows h₃).trans (h₃.grows h₄)) T hT
    have hcarT := hcar.mono (h₃.grows h₄) T hT
    have hrestT := hrest T hT
    rw [hstart.position_eq] at hasT
    rw [h₁.position_eq] at hnameT
    rw [h₂.position_eq] at hcarT
    rw [h₃.position_eq] at hrestT
    simp only [List.nil_append, bytesOfAll_append, ← bytesOfPart_eq, bytesOfAll_singleton,
      List.length_append, ← Nat.add_assoc] at hnameT hcarT hrestT
    change value? e.stream T (.cell lead.flags attributes? tag? w w') s.cursor.position = _
    rw [value?, Setting.origin, h.offset]
    exact Option.bind_eq_some_iff.mpr ⟨kind, hk, Option.bind_eq_some_iff.mpr ⟨as, hasT,
      Option.bind_eq_some_iff.mpr ⟨name, hnameT, Option.bind_eq_some_iff.mpr ⟨car, hcarT,
        Option.bind_eq_some_iff.mpr ⟨rest, hrestT, rfl⟩⟩⟩⟩⟩

theorem ends_contentAs (h : Opened lead s u) (ht : lead.flags.type? = some type) :
    Ends (contentAs e nested cdr lead type) u (Whole e.stream s) (Partial e.stream s) := by
  have hnull (hw : (Wire.null lead.flags).WellFormed) : Whole e.stream s .null u :=
    (Midway.start h.symbolic hw (h.moves.skip (.refl u))).whole hw rfl rfl rfl (fun h ↦ by cases h)
      fun _ _ ↦ rfl
  unfold contentAs
  split
  · exact .pure (hnull (.inl ht))
  · exact .pure (hnull (.inr ht))
  · exact h.reference ht
  · exact ends_char hn cdr h ht
  · exact ends_symbol hn cdr h ht
  · exact ends_list hn cdr h ht
  · exact ends_strings hn cdr h ht
  · split
    · next hr => exact ends_vector hn hr h ht
    · next hk => exact ends_cell hn hc h (by rw [ht, Option.bind_some, hk])
    · exact .throw h.stop

theorem ends_content {depth : Nat} (h : Opened lead s u) :
    Ends (content e nested cdr depth lead) u (Whole e.stream s) (Partial e.stream s) := by
  unfold content
  cases ht : TypeCode.ofCode? lead.flags.typeByte with
  | none => exact .throw h.stop
  | some type =>
    dsimp only
    split
    · exact .throw h.stop
    · refine Ends.bind (Q := fun _ t ↦ t = u) rfl fun _ t ht' ↦ ?_
      obtain rfl := ht'
      refine Ends.bind (Q := fun _ t ↦ Opened lead s t) ?_ fun _ t h' ↦ ends_contentAs hn hc h' ht
      exact ⟨h.offset, ⟨h.moves.rest, h.moves.position, h.moves.table⟩, h.symbolic⟩

end Content

theorem readLead_eq_ok {lead : Lead} (h : readLead s = .ok lead u) :
    lead.offset = s.cursor.position ∧ Moves s u lead.flags.bytes [] := by
  obtain ⟨front, hm⟩ := (skips_onCursor Locality.compositional_local.int32) s
  obtain ⟨p, v, hv, h⟩ := EStateM.bind_eq_ok.mp h
  cases hv
  obtain ⟨n, v, hn, h⟩ := EStateM.bind_eq_ok.mp h
  cases h
  rw [hn] at hm
  exact ⟨rfl, hm.of_rest (onCursor_spelled Cursor.spells_int32 hn).2⟩

theorem readLead_eq_error {err : Error} (h : readLead s = .error err t) : Partial stream s t := by
  obtain ⟨front, hm⟩ := (skips_onCursor Locality.compositional_local.int32) s
  have hget : (get : Reading Progress) s = .ok s s := rfl
  rw [readLead, EStateM.bind_of_ok hget] at h
  cases hn : onCursor Cursor.int32 s with
  | ok n v =>
    rw [EStateM.bind_of_ok hn] at h
    cases h
  | error err' v =>
    rw [EStateM.bind_of_error hn] at h
    cases h
    rw [hn] at hm
    refine ⟨.stopped front, fun w _ more he ↦ ?_, hm⟩
    have hrest := hm.rest
    rw [he, List.append_assoc] at hrest
    rw [onCursor_read Cursor.spells_int32 trivial hrest] at hn
    cases hn

theorem ends_readLead (hs : s.table.Symbolic) :
    Ends readLead s (fun lead u ↦ Opened lead s u) (Partial stream s) := by
  refine .intro (fun lead u h ↦ ?_) fun _ _ h ↦ readLead_eq_error h
  obtain ⟨hoffset, hm⟩ := readLead_eq_ok h
  exact ⟨hoffset, hm, hs⟩

/-- Every item that is read, to its end or in part, is accounted for by what stands there. -/
theorem accounted_item_rest (e : Setting) (n : Nat) :
    (∀ depth, Accounted e.stream (item e n depth)) ∧
      ∀ depth, Accounted e.stream (rest e n depth) := by
  have hnone (s : Progress) : Partial e.stream s s := ⟨.stopped [], wellFormed_stopped_nil, .refl s⟩
  induction n with
  | zero => exact ⟨fun _ s _ ↦ .throw (hnone s), fun _ s _ ↦ .throw (hnone s)⟩
  | succ n ih =>
    obtain ⟨hi, hr⟩ := ih
    constructor
    · intro depth s hs
      rw [item]
      exact (ends_readLead hs).bind fun lead u h ↦ ends_content (hi _) (hr _) h
    · intro depth s hs
      rw [rest]
      refine (ends_readLead hs).bind fun lead u h ↦ ?_
      split
      · next hk => exact ends_cell (hi _) (hr _) h hk
      · exact ends_content (hi _) (hr _) h

theorem accounted_read (e : Setting) : Accounted e.stream (read e) := by
  intro s hs
  rw [Ends, read_eq_item e (Nat.le_refl _)]
  exact (accounted_item_rest e s.cursor.remaining).1 0 s hs

end Rds.Account
