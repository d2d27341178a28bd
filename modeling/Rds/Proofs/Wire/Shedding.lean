import Mathlib.Data.List.Forall2
import Rds.Proofs.Lockstep
import Rds.Proofs.Wire.Meaning

namespace Rds

namespace FlagWord

def withoutAttributes (w : FlagWord) : FlagWord := ⟨w.raw &&& ~~~0x200⟩

theorem bit_withoutAttributes (w : FlagWord) {i : Nat} (hi : i < 32) :
    w.withoutAttributes.bit i = (w.bit i && i != 9) := by
  have hmask : (0x200 : Int32).toBitVec = BitVec.twoPow 32 9 := rfl
  rw [bit, withoutAttributes, Int32.toBitVec_and, Int32.toBitVec_not, hmask, BitVec.getLsbD_and,
    BitVec.getLsbD_not, BitVec.getLsbD_twoPow, bit]
  simp only [hi, decide_true, Bool.true_and]
  grind

theorem typeByte_withoutAttributes (w : FlagWord) : w.withoutAttributes.typeByte = w.typeByte := by
  refine typeByte_of_bits fun i hi ↦ ?_
  have hne : (i != 9) = true := bne_iff_ne.mpr (by omega)
  rw [bit_withoutAttributes w (by omega), hne, Bool.and_true]

theorem hasAttributes_withoutAttributes (w : FlagWord) :
    w.withoutAttributes.hasAttributes = false := by
  rw [hasAttributes_eq, bit_withoutAttributes w (by decide)]
  exact Bool.and_false _

end FlagWord

namespace Wire

/-- Neither the item nor any item inside is a symbol. -/
inductive Symbolless : Wire → Prop
  | intro {w : Wire} (form : w.form ≠ .symbol) (parts : ∀ x ∈ w.parts, Symbolless x) : Symbolless w

/-- The second item is the first one, where strings may have lost attributes without a symbol. -/
inductive Sheds : Wire → Wire → Prop
  | null (word : FlagWord) : Sheds (.null word) (.null word)
  | reference (word : FlagWord) (index? : Option Int32) :
      Sheds (.reference word index?) (.reference word index?)
  | char (word : FlagWord) (content? : Option (List UInt8)) {part? part'? : Option Wire}
      (hpart : Option.Rel Sheds part? part'?) :
      Sheds (.char word content? part?) (.char word content? part'?)
  | shed (word : FlagWord) (content? : Option (List UInt8)) {x : Wire} (hx : x.Symbolless) :
      Sheds (.char word content? (some x)) (.char word.withoutAttributes content? none)
  | symbol (word : FlagWord) {name name' : Wire} (hname : Sheds name name') :
      Sheds (.symbol word name) (.symbol word name')
  | atoms (word : FlagWord) (data : Data) {part? part'? : Option Wire}
      (hpart : Option.Rel Sheds part? part'?) :
      Sheds (.atoms word data part?) (.atoms word data part'?)
  | strings (word : FlagWord) {ws ws' : List Wire} {part? part'? : Option Wire}
      (hws : List.Forall₂ Sheds ws ws') (hpart : Option.Rel Sheds part? part'?) :
      Sheds (.strings word ws part?) (.strings word ws' part'?)
  | list (word : FlagWord) {ws ws' : List Wire} {part? part'? : Option Wire}
      (hws : List.Forall₂ Sheds ws ws') (hpart : Option.Rel Sheds part? part'?) :
      Sheds (.list word ws part?) (.list word ws' part'?)
  | cell (word : FlagWord) {part? part'? tag? tag'? : Option Wire} {car car' cdr cdr' : Wire}
      (hpart : Option.Rel Sheds part? part'?) (htag : Option.Rel Sheds tag? tag'?)
      (hcar : Sheds car car') (hcdr : Sheds cdr cdr') :
      Sheds (.cell word part? tag? car cdr) (.cell word part'? tag'? car' cdr')

mutual

theorem Sheds.refl (w : Wire) : w.Sheds w := by
  match w with
  | .null word => exact .null word
  | .reference word index? => exact .reference word index?
  | .char word content? part? => exact .char word content? (rel_sheds_refl part?)
  | .symbol word name => exact .symbol word (Sheds.refl name)
  | .atoms word data part? => exact .atoms word data (rel_sheds_refl part?)
  | .strings word ws part? => exact .strings word (forall₂_sheds_refl ws) (rel_sheds_refl part?)
  | .list word ws part? => exact .list word (forall₂_sheds_refl ws) (rel_sheds_refl part?)
  | .cell word part? tag? car cdr =>
    exact .cell word (rel_sheds_refl part?) (rel_sheds_refl tag?) (Sheds.refl car) (Sheds.refl cdr)
termination_by structural w

theorem rel_sheds_refl (part? : Option Wire) : Option.Rel Sheds part? part? := by
  match part? with
  | none => exact .none
  | some w => exact .some (Sheds.refl w)
termination_by structural part?

theorem forall₂_sheds_refl (ws : List Wire) : List.Forall₂ Sheds ws ws := by
  match ws with
  | [] => exact .nil
  | w :: ws => exact .cons (Sheds.refl w) (forall₂_sheds_refl ws)
termination_by structural ws

end

variable {w w' : Wire}

theorem Sheds.typeByte (h : w.Sheds w') : w'.word.typeByte = w.word.typeByte := by
  cases h with
  | shed word _ _ => exact word.typeByte_withoutAttributes
  | _ => rfl

theorem exists_rel_of_toList {part? : Option Wire} {ws' : List Wire}
    (h : List.Forall₂ Sheds part?.toList ws') :
    ∃ part'?, Option.Rel Sheds part? part'? ∧ part'?.toList = ws' := by
  cases part? with
  | none =>
    cases h
    exact ⟨none, .none, rfl⟩
  | some w =>
    cases h with
    | cons hw h =>
      cases h
      exact ⟨_, .some hw, rfl⟩

theorem exists_append_of_forall₂ {xs ys zs : List Wire} (h : List.Forall₂ Sheds (xs ++ ys) zs) :
    ∃ xs' ys', zs = xs' ++ ys' ∧ List.Forall₂ Sheds xs xs' ∧ List.Forall₂ Sheds ys ys' := by
  induction xs generalizing zs with
  | nil => exact ⟨[], zs, rfl, .nil, h⟩
  | cons x xs ih =>
    cases h with
    | cons hx h =>
      obtain ⟨xs', ys', rfl, hxs, hys⟩ := ih h
      exact ⟨_ :: xs', ys', rfl, .cons hx hxs, hys⟩

theorem exists_sheds_of_parts {ws' : List Wire} (h : List.Forall₂ Sheds w.parts ws') :
    ∃ w', w.Sheds w' ∧ w'.word = w.word ∧ w'.head = w.head ∧ w'.parts = ws' := by
  cases w with
  | null word =>
    cases h
    exact ⟨_, .null word, rfl, rfl, rfl⟩
  | reference word index? =>
    cases h
    exact ⟨_, .reference word index?, rfl, rfl, rfl⟩
  | char word content? part? =>
    obtain ⟨part'?, hpart, hparts⟩ := exists_rel_of_toList h
    exact ⟨_, .char word content? hpart, rfl, rfl, hparts⟩
  | symbol word name =>
    cases h with
    | cons hname h =>
      cases h
      exact ⟨_, .symbol word hname, rfl, rfl, rfl⟩
  | atoms word data part? =>
    obtain ⟨part'?, hpart, hparts⟩ := exists_rel_of_toList h
    exact ⟨_, .atoms word data hpart, rfl, rfl, hparts⟩
  | strings word ws part? =>
    obtain ⟨xs', ys', rfl, hws, h⟩ := exists_append_of_forall₂ h
    obtain ⟨part'?, hpart, rfl⟩ := exists_rel_of_toList h
    refine ⟨_, .strings word hws hpart, rfl, ?_, rfl⟩
    rw [head, head, hws.length_eq]
  | list word ws part? =>
    obtain ⟨xs', ys', rfl, hws, h⟩ := exists_append_of_forall₂ h
    obtain ⟨part'?, hpart, rfl⟩ := exists_rel_of_toList h
    refine ⟨_, .list word hws hpart, rfl, ?_, rfl⟩
    rw [head, head, hws.length_eq]
  | cell word part? tag? car cdr =>
    obtain ⟨xs', ys', rfl, hxs, hys⟩ := exists_append_of_forall₂ h
    obtain ⟨part'?, hpart, rfl⟩ := exists_rel_of_toList hxs
    obtain ⟨ts', zs', rfl, hts, hzs⟩ := exists_append_of_forall₂ hys
    obtain ⟨tag'?, htag, rfl⟩ := exists_rel_of_toList hts
    cases hzs with
    | cons hcar hzs =>
      cases hzs with
      | cons hcdr hzs =>
        cases hzs
        exact ⟨_, .cell word hpart htag hcar hcdr, rfl, rfl, rfl⟩

theorem split_of_mem_locate {x : Place} {ws : List Wire} {p : Nat} (h : x ∈ locate ws p) :
    ∃ before after, ws = before ++ x.item :: after ∧
      x.offset = p + (bytesOfAll before).length := by
  induction ws generalizing p with
  | nil => cases h
  | cons w ws ih =>
    obtain rfl | h := List.mem_cons.mp h
    · exact ⟨[], ws, rfl, rfl⟩
    · obtain ⟨before, after, rfl, hoffset⟩ := ih h
      refine ⟨w :: before, after, rfl, ?_⟩
      rw [hoffset, bytesOfAll, List.length_append, Nat.add_assoc]

/-- What an item inside sheds, the whole item sheds, and nothing else changes. -/
theorem exists_sheds_of_mem_all {x y : Place} {y' : Wire} (hy : y ∈ x.all)
    (h : y.item.Sheds y') :
    ∃ x' front back, x.item.Sheds x' ∧ x.item.bytes = front ++ (y.item.bytes ++ back) ∧
      x'.bytes = front ++ (y'.bytes ++ back) ∧ y.offset = x.offset + front.length := by
  induction x using Place.induction_parts with
  | step x ih =>
    rw [Place.all_eq] at hy
    obtain hy | hy := List.mem_append.mp hy
    · obtain ⟨z, hz, hy⟩ := List.mem_flatMap.mp hy
      obtain ⟨z', front, back, hsheds, hbytes, hbytes', hoffset⟩ := ih z hz hy
      obtain ⟨before, after, hparts, hzoffset⟩ := split_of_mem_locate hz
      have hall : List.Forall₂ Sheds x.item.parts (before ++ z' :: after) := by
        rw [hparts]
        exact List.rel_append (forall₂_sheds_refl before) (.cons hsheds (forall₂_sheds_refl after))
      obtain ⟨x', hx', hword, hhead, hparts'⟩ := exists_sheds_of_parts hall
      refine ⟨x', x.item.word.bytes ++ x.item.head ++ bytesOfAll before ++ front,
        back ++ bytesOfAll after, hx', ?_, ?_, ?_⟩
      · rw [bytes_eq_parts, hparts, bytesOfAll_append, bytesOfAll, hbytes]
        simp only [List.append_assoc]
      · rw [bytes_eq_parts, hword, hhead, hparts', bytesOfAll_append, bytesOfAll, hbytes']
        simp only [List.append_assoc]
      · rw [hoffset, hzoffset, opening]
        simp only [List.length_append, FlagWord.length_bytes]
        omega
    · obtain rfl := List.mem_singleton.mp hy
      exact ⟨y', [], [], h, (List.append_nil _).symm, (List.append_nil _).symm, rfl⟩

theorem Symbolless.forms (h : w.Symbolless) (p : Nat) :
    ∀ z ∈ Place.all ⟨p, w⟩, z.item.form ≠ .symbol := by
  induction h generalizing p with
  | intro form _ ih =>
    intro z hz
    rw [Place.all_eq] at hz
    obtain hz | hz := List.mem_append.mp hz
    · obtain ⟨y, hy, hz⟩ := List.mem_flatMap.mp hz
      exact ih y.item (Place.mem_parts hy).1 y.offset z hz
    · exact List.mem_singleton.mp hz ▸ form

theorem Symbolless.names_eq_nil (h : w.Symbolless) (stream p : Nat) :
    names stream (Place.all ⟨p, w⟩) = [] :=
  List.filterMap_eq_nil_iff.mpr fun z hz ↦ symbol?_of_form (h.forms p z hz) z.offset

end Wire

end Rds
