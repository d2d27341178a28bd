import Mathlib.Algebra.GroupWithZero.Nat
import Rds.Proofs.Account.Content
import Rds.Proofs.Graph
import Rds.Proofs.Turns
import Rds.Proofs.Wire.Path

namespace Rds

/-- The bytes of the elements, at eight for a string. -/
def Atoms.bytes : Atoms → Nat
  | .logical xs => 4 * xs.length
  | .integer xs => 4 * xs.length
  | .double xs => 8 * xs.length
  | .complex xs => 16 * xs.length
  | .character xs => 8 * xs.length
  | .raw xs => xs.length

namespace Value

def elementBytes : Value → Nat
  | vector _ atoms _ _ => atoms.bytes
  | _ => 0

/-- Four for each node, and the bytes of its elements. -/
def weight (us : List Value) : Nat := 4 * us.length + (us.map elementBytes).sum

theorem weight_nil : weight [] = 0 := rfl

theorem weight_cons (u : Value) (us : List Value) :
    weight (u :: us) = 4 + u.elementBytes + weight us := by
  rw [weight, weight, List.length_cons, List.map_cons, List.sum_cons]
  omega

theorem weight_append (us vs : List Value) : weight (us ++ vs) = weight us + weight vs := by
  rw [weight, weight, weight, List.length_append, List.map_append, List.sum_append]
  omega

end Value

namespace Attributes

open Value

theorem weight_put (name : String) (v : Value) (as : Attributes) :
    weight (nodesOfAttributes (put name v as)) ≤
      weight (nodesOfAttributes as) + weight v.nodes := by
  induction as with
  | nil =>
    simp only [put, nodesOfAttributes, weight_append]
    omega
  | cons a as ih =>
    obtain ⟨k, u⟩ := a
    rw [put]
    split
    · simp only [nodesOfAttributes, weight_append]
      omega
    · split
      · simp only [nodesOfAttributes, weight_append]
        omega
      · simp only [nodesOfAttributes, weight_append]
        omega

theorem weight_collect {as bs : Attributes} {v : Value} (h : collect as v = .ok bs) :
    weight (nodesOfAttributes bs) ≤ weight (nodesOfAttributes as) + weight v.nodes := by
  match v with
  | .pair origin kind tag car cdr attributes object =>
    obtain ⟨name, cs, hi, hc⟩ := collect_pair h
    obtain ⟨-, rfl⟩ := insert_eq_ok.mp hi
    have hput := weight_put name car as
    have hrest := weight_collect hc
    simp only [nodes, weight_cons, weight_append]
    omega
  | .null =>
    cases h
    exact Nat.le_add_right _ _
  | .symbol _ => cases h
  | .char _ => cases h
  | .vector .. => cases h
  | .list .. => cases h
termination_by structural v

theorem weight_bind {as : Attributes} {v : Value} (h : bind v = .ok as) :
    weight (nodesOfAttributes as) ≤ weight v.nodes := by
  cases v with
  | pair origin kind tag car cdr attributes object =>
    have hcollect : _ ≤ weight (nodesOfAttributes []) + _ := weight_collect h
    rwa [nodesOfAttributes, weight_nil, Nat.zero_add] at hcollect
  | null | symbol _ | char _ | vector _ _ _ _ | list _ _ _ _ => cases h

end Attributes

namespace Wire

open Item Value

variable {stream : Nat} {T : ReferenceTable}

theorem Data.length_bytes (data : Data) : data.bytes.length = 4 + data.atoms.bytes := by
  cases data with
  | logical words =>
    rw [bytes, length_countedBytes length_int32Bytes, atoms, Atoms.bytes, List.length_map]
  | integer items => rw [bytes, length_countedBytes length_int32Bytes, atoms, Atoms.bytes]
  | double items => rw [bytes, length_countedBytes length_doubleBytes, atoms, Atoms.bytes]
  | complex items => rw [bytes, length_countedBytes length_complexBytes, atoms, Atoms.bytes]
  | raw items => rw [bytes, List.length_append, length_lengthBytes, atoms, Atoms.bytes]

theorem eight_le_of_char {w : Wire} {p : Nat} {content : Chars} (hT : T.Symbolic)
    (h : w.value? stream T p = some (.char content)) : 8 ≤ w.bytes.length := by
  obtain ⟨word, content?, part?, rfl, -⟩ := eq_char_of_value? hT h
  have hcontent : 4 ≤ (contentBytes content?).length := by
    cases content? with
    | none => exact Nat.le_of_eq (length_bigEndianBytes 4 _).symm
    | some bytes =>
      rw [contentBytes, List.length_append, length_lengthBytes]
      exact Nat.le_add_right _ _
  rw [bytes, List.length_append, FlagWord.length_bytes, List.length_append]
  omega

theorem length_le_of_mapM_chars? {ws : List Wire} {p : Nat} {vs : List Value}
    {contents : List Chars} (hT : T.Symbolic) (hvs : values? stream T ws p = some vs)
    (hc : vs.mapM chars? = some contents) : 8 * contents.length ≤ (bytesOfAll ws).length := by
  induction ws generalizing p vs contents with
  | nil =>
    cases hvs
    cases hc
    exact Nat.le_refl _
  | cons w ws ih =>
    obtain ⟨v, hv, hvs⟩ := Option.bind_eq_some_iff.mp hvs
    obtain ⟨us, hus, hvs⟩ := Option.bind_eq_some_iff.mp hvs
    cases hvs
    rw [List.mapM_cons] at hc
    obtain ⟨content, hcontent, hc⟩ := Option.bind_eq_some_iff.mp hc
    obtain ⟨more, hmore, hc⟩ := Option.bind_eq_some_iff.mp hc
    cases hc
    have hrest := ih hus hmore
    have hfirst : 8 ≤ w.bytes.length := by
      cases v with
      | char _ => exact eight_le_of_char hT hv
      | _ => cases hcontent
    rw [List.length_cons, bytesOfAll, List.length_append]
    omega

mutual

/-- What an item stands for weighs no more than the item has bytes. -/
theorem weight_value?_le (hT : T.Symbolic) {w : Wire} {p : Nat} {v : Value}
    (h : w.value? stream T p = some v) : weight v.nodes ≤ w.bytes.length := by
  match w with
  | .null word =>
    cases h
    exact Nat.le_of_eq (FlagWord.length_bytes word).symm
  | .reference word index? =>
    obtain ⟨name, rfl⟩ := hT.of_get? h
    rw [bytes, List.length_append, FlagWord.length_bytes]
    exact Nat.le_add_right _ _
  | .char word content? part? =>
    cases h
    rw [bytes, List.length_append, FlagWord.length_bytes]
    exact Nat.le_add_right _ _
  | .symbol word w =>
    obtain ⟨name, -, rfl⟩ := Option.map_eq_some_iff.mp h
    rw [bytes, List.length_append, FlagWord.length_bytes]
    exact Nat.le_add_right _ _
  | .atoms word data part? =>
    obtain ⟨as, has, h⟩ := Option.bind_eq_some_iff.mp h
    cases h
    have hset := weight_attributeSet?_le hT has
    simp only [nodes, weight_cons, elementBytes, bytes, List.length_append, FlagWord.length_bytes,
      Data.length_bytes]
    omega
  | .strings word elements part? =>
    obtain ⟨vs, hvs, h⟩ := Option.bind_eq_some_iff.mp h
    obtain ⟨contents, hc, h⟩ := Option.bind_eq_some_iff.mp h
    obtain ⟨as, has, h⟩ := Option.bind_eq_some_iff.mp h
    cases h
    have hset := weight_attributeSet?_le hT has
    have hcontents := length_le_of_mapM_chars? hT hvs hc
    simp only [nodes, weight_cons, elementBytes, Atoms.bytes, bytes, List.length_append,
      FlagWord.length_bytes, length_lengthBytes]
    omega
  | .list word elements part? =>
    obtain ⟨vs, hvs, h⟩ := Option.bind_eq_some_iff.mp h
    obtain ⟨as, has, h⟩ := Option.bind_eq_some_iff.mp h
    cases h
    have hset := weight_attributeSet?_le hT has
    have helements := weight_values?_le hT hvs
    simp only [nodes, weight_cons, weight_append, elementBytes, bytes, List.length_append,
      FlagWord.length_bytes, length_lengthBytes]
    omega
  | .cell word part? tag? car cdr =>
    obtain ⟨kind, -, h⟩ := Option.bind_eq_some_iff.mp h
    obtain ⟨as, has, h⟩ := Option.bind_eq_some_iff.mp h
    obtain ⟨tag, -, h⟩ := Option.bind_eq_some_iff.mp h
    obtain ⟨a, ha, h⟩ := Option.bind_eq_some_iff.mp h
    obtain ⟨d, hd, h⟩ := Option.bind_eq_some_iff.mp h
    cases h
    have hset := weight_attributeSet?_le hT has
    have hcar := weight_value?_le hT ha
    have hcdr := weight_value?_le hT hd
    simp only [nodes, weight_cons, weight_append, elementBytes, bytes, List.length_append,
      FlagWord.length_bytes]
    omega
termination_by structural w

theorem weight_attributeSet?_le (hT : T.Symbolic) {part? : Option Wire} {p : Nat}
    {as : Attributes} (h : attributeSet? stream T part? p = some as) :
    weight (nodesOfAttributes as) ≤ (bytesOfPart part?).length := by
  match part? with
  | none =>
    cases h
    exact Nat.zero_le _
  | some w =>
    obtain ⟨v, hv, h⟩ := Option.bind_eq_some_iff.mp h
    exact Nat.le_trans (Attributes.weight_bind (toOption_eq_some h)) (weight_value?_le hT hv)
termination_by structural part?

theorem weight_values?_le (hT : T.Symbolic) {ws : List Wire} {p : Nat} {vs : List Value}
    (h : values? stream T ws p = some vs) :
    weight (nodesOfAll vs) ≤ (bytesOfAll ws).length := by
  match ws with
  | [] =>
    cases h
    exact Nat.le_refl _
  | w :: ws =>
    obtain ⟨v, hv, h⟩ := Option.bind_eq_some_iff.mp h
    obtain ⟨us, hus, h⟩ := Option.bind_eq_some_iff.mp h
    cases h
    have hfirst := weight_value?_le hT hv
    have hrest := weight_values?_le hT hus
    rw [nodesOfAll, weight_append, bytesOfAll, List.length_append]
    omega
termination_by structural ws

end

end Wire

namespace Item

open Value

/-- The loop ends after two turns for every word ahead and one more, whatever the lengths in the
stream are. With a table of symbols, a value takes no more room than the bytes that were read:
each node four bytes, and each element its own. -/
theorem read_bounded (e : Setting) (s : Progress) :
    runFor e (2 * (s.cursor.remaining / 4) + 1) ⟨.empty, .item⟩ s = some (read e s) ∧
      (s.table.Symbolic → ∀ v t, read e s = .ok v t →
        t.cursor.remaining + (4 * v.nodes.length + (v.nodes.map elementBytes).sum) ≤
          s.cursor.remaining) := by
  refine ⟨runFor_eq (Nat.le_refl _), fun hs v t h ↦ ?_⟩
  obtain ⟨w, -, hm, hv⟩ := (Account.accounted_read e s hs).of_ok h
  have hweight := Wire.weight_value?_le (hs.extends hm.grows) (hv _ (.refl _))
  rw [weight] at hweight
  rw [Cursor.remaining, Cursor.remaining, hm.rest, List.length_append]
  omega

def mixedList : List UInt8 :=
  [0, 0, 0, 19, 0, 0, 0, 3, 0, 0, 0, 14, 0, 0, 0, 1, 63, 240, 0, 0, 0, 0, 0, 0,
    0, 0, 0, 1, 0, 0, 0, 9, 0, 0, 0, 1, 120, 0, 0, 1, 255]

theorem read_mixedList :
    ∃ v t, runFor ⟨3, 0⟩ 21 ⟨.empty, .item⟩ (.start mixedList []) = some (.ok v t) ∧
      v.kind = .list ∧ v.nodes.length = 4 ∧
      t.cursor.remaining + (4 * v.nodes.length + (v.nodes.map elementBytes).sum) ≤ 41 := by
  have hread : (match read ⟨3, 0⟩ (.start mixedList []) with
      | .ok v _ => v.kind == .list && v.nodes.length == 4
      | .error _ _ => false) = true := by decide +kernel
  obtain ⟨hturns, hweight⟩ := read_bounded ⟨3, 0⟩ (.start mixedList [])
  cases h : read ⟨3, 0⟩ (.start mixedList []) with
  | error err t =>
    rw [h] at hread
    cases hread
  | ok v t =>
    simp only [h, Bool.and_eq_true, beq_iff_eq] at hread
    rw [h] at hturns
    exact ⟨v, t, hturns, hread.1, hread.2, hweight ReferenceTable.symbolic_empty v t h⟩

end Item

end Rds
