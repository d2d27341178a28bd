import Rds.Proofs.Wire

namespace Rds.Wire

open Item

inductive Form
  | null | reference | char | symbol | atoms | strings | list | cell

def form : Wire → Form
  | null _ => .null
  | reference _ _ => .reference
  | char _ _ _ => .char
  | symbol _ _ => .symbol
  | atoms _ _ _ => .atoms
  | strings _ _ _ => .strings
  | list _ _ _ => .list
  | cell _ _ _ _ _ => .cell

def formOf : TypeCode → Form
  | .reference => .reference
  | .char => .char
  | .symbol => .symbol
  | .logical | .integer | .double | .complex | .raw => .atoms
  | .string => .strings
  | .list => .list
  | .pairlist | .language | .closure | .promise | .dots => .cell
  | _ => .null

theorem formOf_pairKind {type : TypeCode} {kind : PairKind} (h : type.pairKind? = some kind) :
    formOf type = .cell := by
  cases type <;> cases h <;> rfl

theorem form_eq {w : Wire} (h : w.WellFormed) : w.word.type?.map formOf = some w.form := by
  cases w with
  | null word =>
    obtain ht | ht := h
    · rw [Wire.word, ht]
      rfl
    · rw [Wire.word, ht]
      rfl
  | atoms word data attributes? =>
    rw [Wire.word, h.1]
    cases data <;> rfl
  | cell word attributes? tag? car cdr =>
    obtain ⟨⟨kind, hk⟩, -⟩ := h
    obtain ⟨type, ht, hk⟩ := Option.bind_eq_some_iff.mp hk
    rw [Wire.word, ht, Option.map_some, formOf_pairKind hk]
    rfl
  | reference _ _ | char _ _ _ | symbol _ _ | strings _ _ _ | list _ _ _ =>
    rw [Wire.word, h.1]
    rfl

section Cancel

variable {x y : List UInt8}

theorem int32_cancel {m n : Int32} (h : int32Bytes m ++ x = int32Bytes n ++ y) : m = n ∧ x = y :=
  Cursor.spells_int32.cancel trivial trivial h

theorem word_cancel {v w : FlagWord} (h : v.bytes ++ x = w.bytes ++ y) : v = w ∧ x = y := by
  obtain ⟨hraw, hrest⟩ := int32_cancel h
  exact ⟨congrArg FlagWord.mk hraw, hrest⟩

theorem index_cancel {index? index'? : Option Int32} (hs : index?.isSome = index'?.isSome)
    (h : indexBytes index? ++ x = indexBytes index'? ++ y) : index? = index'? ∧ x = y := by
  cases index? with
  | none =>
    cases index'? with
    | none => exact ⟨rfl, h⟩
    | some _ => cases hs
  | some index =>
    cases index'? with
    | none => cases hs
    | some index' =>
      obtain ⟨hi, hrest⟩ := int32_cancel h
      exact ⟨congrArg some hi, hrest⟩

theorem content_cancel {content? content'? : Option (List UInt8)}
    (hc : ∀ bytes ∈ content?, bytes.length < 2 ^ 31)
    (hc' : ∀ bytes ∈ content'?, bytes.length < 2 ^ 31)
    (h : contentBytes content? ++ x = contentBytes content'? ++ y) :
    content? = content'? ∧ x = y := by
  cases content? with
  | none =>
    cases content'? with
    | none => exact ⟨rfl, (int32_cancel h).2⟩
    | some bytes' =>
      rw [contentBytes, contentBytes, List.append_assoc] at h
      exact absurd (int32_cancel h).1.symm (length_ne_missing (hc' bytes' rfl))
  | some bytes =>
    cases content'? with
    | none =>
      rw [contentBytes, contentBytes, List.append_assoc] at h
      exact absurd (int32_cancel h).1 (length_ne_missing (hc bytes rfl))
    | some bytes' =>
      obtain ⟨hb, hrest⟩ := spells_readRaw.cancel (hc bytes rfl) (hc' bytes' rfl) h
      exact ⟨congrArg some hb, hrest⟩

theorem counted_cancel {α : Type} {r : Cursor.Reader α} {spell : α → List UInt8}
    (hr : Cursor.Spells r spell fun _ ↦ True) {as bs : List α} (ha : as.length < 2 ^ 31)
    (hb : bs.length < 2 ^ 31) (h : countedBytes spell as ++ x = countedBytes spell bs ++ y) :
    as = bs ∧ x = y :=
  (spells_readCounted hr).cancel ⟨ha, fun _ _ ↦ trivial⟩ ⟨hb, fun _ _ ↦ trivial⟩ h

theorem data_cancel {data data' : Data} (ht : data.type = data'.type)
    (hl : data.length < 2 ^ 31) (hl' : data'.length < 2 ^ 31)
    (h : data.bytes ++ x = data'.bytes ++ y) : data = data' ∧ x = y := by
  cases data with
  | logical words =>
    cases data' with
    | logical words' =>
      obtain ⟨rfl, hrest⟩ := counted_cancel Cursor.spells_int32 hl hl' h
      exact ⟨rfl, hrest⟩
    | integer _ | double _ | complex _ | raw _ => cases ht
  | integer items =>
    cases data' with
    | integer items' =>
      obtain ⟨rfl, hrest⟩ := counted_cancel Cursor.spells_int32 hl hl' h
      exact ⟨rfl, hrest⟩
    | logical _ | double _ | complex _ | raw _ => cases ht
  | double items =>
    cases data' with
    | double items' =>
      obtain ⟨rfl, hrest⟩ := counted_cancel spells_readDouble hl hl' h
      exact ⟨rfl, hrest⟩
    | logical _ | integer _ | complex _ | raw _ => cases ht
  | complex items =>
    cases data' with
    | complex items' =>
      obtain ⟨rfl, hrest⟩ := counted_cancel spells_readComplex hl hl' h
      exact ⟨rfl, hrest⟩
    | logical _ | integer _ | double _ | raw _ => cases ht
  | raw items =>
    cases data' with
    | raw items' =>
      obtain ⟨rfl, hrest⟩ := spells_readRaw.cancel hl hl' h
      exact ⟨rfl, hrest⟩
    | logical _ | integer _ | double _ | complex _ => cases ht

theorem lead_cancel {w w' : Wire} (h : w.WellFormed) (h' : w'.WellFormed)
    (he : w.bytes ++ x = w'.bytes ++ y) :
    w.word = w'.word ∧ w.form = w'.form ∧ w.payload ++ x = w'.payload ++ y := by
  rw [bytes_eq, bytes_eq, List.append_assoc, List.append_assoc] at he
  obtain ⟨hword, hrest⟩ := word_cancel he
  have hform := form_eq h
  rw [hword, form_eq h'] at hform
  exact ⟨hword, (Option.some.inj hform).symm, hrest⟩

end Cancel

mutual

/-- No well-formed item is the front of another one. -/
theorem bytes_cancel {w w' : Wire} (h : w.WellFormed) (h' : w'.WellFormed) {x y : List UInt8}
    (he : w.bytes ++ x = w'.bytes ++ y) : w = w' ∧ x = y := by
  obtain ⟨hword, hform, he⟩ := lead_cancel h h' he
  match w with
  | null word =>
    cases w' with
    | null word' =>
      obtain rfl : word = word' := hword
      exact ⟨rfl, he⟩
    | _ => cases hform
  | reference word index? =>
    cases w' with
    | reference word' index'? =>
      obtain rfl : word = word' := hword
      have hs : index?.isSome = index'?.isSome := Bool.eq_iff_iff.mpr (h.2.trans h'.2.symm)
      obtain ⟨rfl, hrest⟩ := index_cancel hs he
      exact ⟨rfl, hrest⟩
    | _ => cases hform
  | char word content? attributes? =>
    cases w' with
    | char word' content'? attributes'? =>
      obtain rfl : word = word' := hword
      obtain ⟨-, hc, hs, ha⟩ := h
      obtain ⟨-, hc', hs', ha'⟩ := h'
      rw [payload, payload, List.append_assoc, List.append_assoc] at he
      obtain ⟨rfl, hrest⟩ := content_cancel hc hc' he
      obtain ⟨rfl, hrest₂⟩ := part_cancel (hs.trans hs'.symm) ha ha' hrest
      exact ⟨rfl, hrest₂⟩
    | _ => cases hform
  | symbol word name =>
    cases w' with
    | symbol word' name' =>
      obtain rfl : word = word' := hword
      obtain ⟨rfl, hrest⟩ := bytes_cancel h.2.2 h'.2.2 he
      exact ⟨rfl, hrest⟩
    | _ => cases hform
  | atoms word data attributes? =>
    cases w' with
    | atoms word' data' attributes'? =>
      obtain rfl : word = word' := hword
      obtain ⟨ht, hl, hs, ha⟩ := h
      obtain ⟨ht', hl', hs', ha'⟩ := h'
      rw [payload, payload, List.append_assoc, List.append_assoc] at he
      obtain ⟨rfl, hrest⟩ := data_cancel (Option.some.inj (ht.symm.trans ht')) hl hl' he
      obtain ⟨rfl, hrest₂⟩ := part_cancel (hs.trans hs'.symm) ha ha' hrest
      exact ⟨rfl, hrest₂⟩
    | _ => cases hform
  | strings word elements attributes? =>
    cases w' with
    | strings word' elements' attributes'? =>
      obtain rfl : word = word' := hword
      obtain ⟨-, hl, hw, hs, ha⟩ := h
      obtain ⟨-, hl', hw', hs', ha'⟩ := h'
      simp only [payload, List.append_assoc] at he
      obtain ⟨hlength, hrest⟩ := Cursor.spells_length.cancel hl hl' he
      obtain ⟨rfl, hrest₂⟩ := all_cancel hlength hw hw' hrest
      obtain ⟨rfl, hrest₃⟩ := part_cancel (hs.trans hs'.symm) ha ha' hrest₂
      exact ⟨rfl, hrest₃⟩
    | _ => cases hform
  | list word elements attributes? =>
    cases w' with
    | list word' elements' attributes'? =>
      obtain rfl : word = word' := hword
      obtain ⟨-, hl, hw, hs, ha⟩ := h
      obtain ⟨-, hl', hw', hs', ha'⟩ := h'
      simp only [payload, List.append_assoc] at he
      obtain ⟨hlength, hrest⟩ := Cursor.spells_length.cancel hl hl' he
      obtain ⟨rfl, hrest₂⟩ := all_cancel hlength hw hw' hrest
      obtain ⟨rfl, hrest₃⟩ := part_cancel (hs.trans hs'.symm) ha ha' hrest₂
      exact ⟨rfl, hrest₃⟩
    | _ => cases hform
  | cell word attributes? tag? car cdr =>
    cases w' with
    | cell word' attributes'? tag'? car' cdr' =>
      obtain rfl : word = word' := hword
      obtain ⟨-, hs, ha, hst, ht, hcar, hcdr⟩ := h
      obtain ⟨-, hs', ha', hst', ht', hcar', hcdr'⟩ := h'
      simp only [payload, List.append_assoc] at he
      obtain ⟨rfl, hrest⟩ := part_cancel (hs.trans hs'.symm) ha ha' he
      obtain ⟨rfl, hrest₂⟩ := part_cancel (hst.trans hst'.symm) ht ht' hrest
      obtain ⟨rfl, hrest₃⟩ := bytes_cancel hcar hcar' hrest₂
      obtain ⟨rfl, hrest₄⟩ := bytes_cancel hcdr hcdr' hrest₃
      exact ⟨rfl, hrest₄⟩
    | _ => cases hform
termination_by structural w

theorem part_cancel {part? part'? : Option Wire} (hs : part?.isSome = part'?.isSome)
    (h : PartWellFormed part?) (h' : PartWellFormed part'?) {x y : List UInt8}
    (he : bytesOfPart part? ++ x = bytesOfPart part'? ++ y) : part? = part'? ∧ x = y := by
  match part? with
  | none =>
    cases part'? with
    | none => exact ⟨rfl, he⟩
    | some _ => cases hs
  | some w =>
    cases part'? with
    | none => cases hs
    | some w' =>
      obtain ⟨rfl, hrest⟩ := bytes_cancel h h' he
      exact ⟨rfl, hrest⟩
termination_by structural part?

theorem all_cancel {ws ws' : List Wire} (hl : ws.length = ws'.length) (h : AllWellFormed ws)
    (h' : AllWellFormed ws') {x y : List UInt8} (he : bytesOfAll ws ++ x = bytesOfAll ws' ++ y) :
    ws = ws' ∧ x = y := by
  match ws with
  | [] =>
    cases ws' with
    | nil => exact ⟨rfl, he⟩
    | cons w' ws' => cases hl
  | w :: ws =>
    cases ws' with
    | nil => cases hl
    | cons w' ws' =>
      rw [bytesOfAll, bytesOfAll, List.append_assoc, List.append_assoc] at he
      obtain ⟨rfl, hrest⟩ := bytes_cancel h.1 h'.1 he
      obtain ⟨rfl, hrest₂⟩ := all_cancel (Nat.succ.inj hl) h.2 h'.2 hrest
      exact ⟨rfl, hrest₂⟩
termination_by structural ws

end

end Rds.Wire
