import Rds.Proofs.Account.Content
import Rds.Proofs.Header

namespace Rds

namespace FlagWord

theorem toNat_raw_reference (i : Int32) :
    (reference i).raw.toBitVec.toNat = 256 * (i.toBitVec.toNat % 2 ^ 24) + 255 := by
  have hraw : (reference i).raw.toBitVec = i.toBitVec <<< 8 ||| 255#32 := rfl
  have hlow : i.toBitVec.toNat <<< 8 % 2 ^ 32 = (i.toBitVec.toNat % 2 ^ 24) <<< 8 := by
    rw [Nat.shiftLeft_eq, Nat.shiftLeft_eq, ← Nat.mul_mod_mul_right]
    rfl
  calc (reference i).raw.toBitVec.toNat
      = (i.toBitVec.toNat % 2 ^ 24) <<< 8 ||| 255 := by
        rw [hraw, BitVec.toNat_or, BitVec.toNat_shiftLeft, hlow]
        rfl
    _ = (i.toBitVec.toNat % 2 ^ 24) <<< 8 + 255 :=
        (Nat.shiftLeft_add_eq_or_of_lt (by decide) _).symm
    _ = 256 * (i.toBitVec.toNat % 2 ^ 24) + 255 := by
        rw [Nat.shiftLeft_eq, Nat.mul_comm]

theorem typeByte_reference (i : Int32) : (reference i).typeByte = TypeCode.reference.code := by
  have hset : (reference i).typeByte.toBitVec = (reference i).raw.toBitVec.setWidth 8 := rfl
  apply UInt8.eq_of_toBitVec_eq
  apply BitVec.eq_of_toNat_eq
  rw [hset, BitVec.toNat_setWidth, toNat_raw_reference]
  exact Nat.mul_add_mod _ _ _

/-- A word holds 24 bits of an index, the uppermost of which becomes its sign. -/
theorem toInt_packedIndex_reference (i : Int32) :
    (reference i).packedIndex.toInt = i.toInt.bmod (2 ^ 24) := by
  have hshift : (reference i).packedIndex.toInt = (reference i).raw.toInt / 2 ^ 8 :=
    Version.toInt_shiftRight _ rfl
  rw [hshift, ← Int32.toInt_toBitVec, ← Int32.toInt_toBitVec, BitVec.toInt_eq_toNat_cond,
    BitVec.toInt_eq_toNat_cond, toNat_raw_reference, Int.bmod]
  omega

theorem packedIndex_reference_eq_iff (i : Int32) :
    (reference i).packedIndex = i ↔ -2 ^ 23 ≤ i.toInt ∧ i.toInt < 2 ^ 23 := by
  rw [← Int32.toInt_inj, toInt_packedIndex_reference, Int.bmod]
  omega

end FlagWord

namespace ReferenceTable

variable {T : ReferenceTable} {index : Int32} {v : Value}

theorem get?_eq_some_iff :
    T.get? index = some v ↔ ∃ n : Nat, index.toInt = n + 1 ∧ T.entries[n]? = some v := by
  unfold get?
  constructor
  · intro h
    split at h
    · next n hn => exact ⟨n, hn, h⟩
    · cases h
  · rintro ⟨n, hn, h⟩
    have hindex : index.toInt = .ofNat (n + 1) := hn
    rw [hindex]
    exact h

theorem resolve_eq_ok_iff :
    T.resolve index = .ok v ↔ ∃ n : Nat, index.toInt = n + 1 ∧ T.entries[n]? = some v := by
  rw [← get?_eq_some_iff, resolve]
  cases T.get? index with
  | none => exact ⟨nofun, nofun⟩
  | some u => rw [Except.ok.injEq, Option.some.injEq]

theorem resolve_of_outside (h : index.toInt < 1 ∨ T.size < index.toInt) :
    T.resolve index = .error (.corruptReference index T.size) := by
  have hnone : T.get? index = none := by
    refine Option.eq_none_iff_forall_ne_some.mpr fun v hv ↦ ?_
    obtain ⟨n, hn, hentry⟩ := get?_eq_some_iff.mp hv
    have hlt : n < T.size := (Array.getElem?_eq_some_iff.mp hentry).1
    omega
  rw [resolve, hnone]

end ReferenceTable

namespace Item

open Wire

variable {e : Setting} {s : Progress} {word : FlagWord} {rest : List UInt8}

def Progress.behindReference (s : Progress) (n : Nat) (rest : List UInt8) : Progress :=
  ⟨⟨s.cursor.position + n, rest⟩, s.table, .item .reference (s.cursor.position + 4) 1 :: s.log⟩

theorem readLead_of_bytes (hs : s.cursor.rest = word.bytes ++ rest) :
    readLead s = .ok ⟨s.cursor.position, word⟩
      { s with cursor := ⟨s.cursor.position + 4, rest⟩ } :=
  EStateM.bind_of_ok (onCursor_read Cursor.spells_int32 trivial hs) _

/-- Reading a reference comes down to one look at the table. -/
theorem read_reference (index? : Option Int32) (he : 0 < e.maxDepth)
    (hword : word.typeByte = TypeCode.reference.code) (hi : index?.isSome ↔ word.packedIndex = 0)
    (hs : s.cursor.rest = word.bytes ++ (indexBytes index? ++ rest)) :
    read e s = require (s.table.resolve (index?.getD word.packedIndex))
      (s.behindReference (4 + (indexBytes index?).length) rest) := by
  have hn : s.cursor.remaining ≤ s.cursor.remaining + 1 := Nat.le_succ _
  have hdepth : ¬ e.maxDepth ≤ 0 := Nat.not_le_of_lt he
  have htype : TypeCode.ofCode? word.typeByte = some .reference :=
    TypeCode.ofCode?_eq_some_iff.mpr hword.symm
  let t : Progress := { s with cursor := ⟨s.cursor.position + 4, indexBytes index? ++ rest⟩ }
  let u : Progress := { t with log := .item .reference t.cursor.position 1 :: t.log }
  have hcontent (nested cdr : Reading Value) :
      Descent.content e nested cdr 0 ⟨s.cursor.position, word⟩ t = readReference word u := by
    unfold Descent.content
    rw [htype]
    dsimp only
    rw [if_neg hdepth]
    rfl
  rw [Descent.read_eq_item e hn, Descent.item, EStateM.bind_of_ok (readLead_of_bytes hs),
    hcontent, Account.readReference_eq hi rfl, Progress.behindReference, ← Nat.add_assoc]

/-- The bytes that refer to an index within one word. -/
def packedReference (index : Int32) : List UInt8 := (FlagWord.reference index).bytes

/-- The bytes that refer to an index by a word of its own. -/
def explicitReference (index : Int32) : List UInt8 :=
  (⟨255⟩ : FlagWord).bytes ++ int32Bytes index

theorem read_packed (he : 0 < e.maxDepth) (hword : word.typeByte = TypeCode.reference.code)
    (hi : word.packedIndex ≠ 0) (s : Progress) (rest : List UInt8) :
    read e (s.ahead (word.bytes ++ rest)) =
      require (s.table.resolve word.packedIndex) (s.behindReference 4 rest) :=
  read_reference none he hword ⟨nofun, fun h ↦ absurd h hi⟩ rfl

theorem read_packedReference (he : 0 < e.maxDepth) {i : Int32} (hi : 1 ≤ i.toInt)
    (hlt : i.toInt < 2 ^ 23) (s : Progress) (rest : List UInt8) :
    read e (s.ahead (packedReference i ++ rest)) =
      require (s.table.resolve i) (s.behindReference 4 rest) := by
  have hpacked : (FlagWord.reference i).packedIndex = i :=
    (FlagWord.packedIndex_reference_eq_iff i).mpr (by omega)
  have hne : (FlagWord.reference i).packedIndex ≠ 0 := by
    rw [hpacked, ne_eq, ← Int32.toInt_inj, Int32.toInt_zero]
    omega
  have hread := read_packed he (FlagWord.typeByte_reference i) hne s rest
  rwa [hpacked] at hread

theorem read_explicitReference (he : 0 < e.maxDepth) (i : Int32) (s : Progress)
    (rest : List UInt8) :
    read e (s.ahead (explicitReference i ++ rest)) =
      require (s.table.resolve i) (s.behindReference 8 rest) :=
  read_reference (some i) he (by decide) ⟨fun _ ↦ rfl, fun _ ↦ rfl⟩
    (List.append_assoc _ _ _)

/-- Both spellings of a reference stand for one entry of the table, that very value, or fail alike.
They differ in their length alone, and in that a word has room for 24 bits of an index. -/
theorem read_references (he : 0 < e.maxDepth) (s : Progress) (rest : List UInt8) :
    (∀ (i : Int32) (n : Nat) (v : Value), i.toInt = n + 1 → s.table.entries[n]? = some v →
      read e (s.ahead (explicitReference i ++ rest)) = .ok v (s.behindReference 8 rest) ∧
      (i.toInt < 2 ^ 23 →
        read e (s.ahead (packedReference i ++ rest)) = .ok v (s.behindReference 4 rest))) ∧
    (∀ i : Int32, i.toInt < 1 ∨ s.table.size < i.toInt →
      read e (s.ahead (explicitReference i ++ rest)) =
        .error (.corruptReference i s.table.size) (s.behindReference 8 rest) ∧
      (1 ≤ i.toInt → i.toInt < 2 ^ 23 →
        read e (s.ahead (packedReference i ++ rest)) =
          .error (.corruptReference i s.table.size) (s.behindReference 4 rest))) ∧
    (∀ word : FlagWord, word.typeByte = TypeCode.reference.code → word.packedIndex < 0 →
      read e (s.ahead (word.bytes ++ rest)) =
        .error (.corruptReference word.packedIndex s.table.size) (s.behindReference 4 rest)) ∧
    ∀ i : Int32, (FlagWord.reference i).packedIndex = i ↔ -2 ^ 23 ≤ i.toInt ∧ i.toInt < 2 ^ 23 := by
  refine ⟨fun i n v hi hv ↦ ?_, fun i hi ↦ ?_, fun word hword hi ↦ ?_,
    FlagWord.packedIndex_reference_eq_iff⟩
  · have hresolve : s.table.resolve i = .ok v := ReferenceTable.resolve_eq_ok_iff.mpr ⟨n, hi, hv⟩
    constructor
    · rw [read_explicitReference he, hresolve]
      rfl
    · intro hlt
      rw [read_packedReference he (by omega) hlt, hresolve]
      rfl
  · have hresolve := ReferenceTable.resolve_of_outside hi
    constructor
    · rw [read_explicitReference he, hresolve]
      rfl
    · intro hpos hlt
      rw [read_packedReference he hpos hlt, hresolve]
      rfl
  · have hneg : word.packedIndex.toInt < 0 := Int32.lt_iff_toInt_lt.mp hi
    have hne : word.packedIndex ≠ 0 := fun h ↦ by simp [h] at hneg
    rw [read_packed he hword hne, ReferenceTable.resolve_of_outside (.inl (by omega))]
    rfl

def behindTwoSymbols (bytes : List UInt8) : Progress :=
  ⟨⟨40, bytes⟩, ⟨#[.symbol (.text ⟨0, 4⟩ "a"), .symbol .na]⟩, []⟩

theorem read_secondSymbol :
    (∃ t, read ⟨1, 0⟩ (behindTwoSymbols [0, 0, 2, 255, 7]) = .ok (.symbol .na) t ∧
      t.cursor = ⟨44, [7]⟩) ∧
    (∃ t, read ⟨1, 0⟩ (behindTwoSymbols [0, 0, 0, 255, 0, 0, 0, 2, 7]) = .ok (.symbol .na) t ∧
      t.cursor = ⟨48, [7]⟩) ∧
    (∃ t, read ⟨1, 0⟩ (behindTwoSymbols [0, 0, 3, 255, 7]) = .error (.corruptReference 3 2) t ∧
      t.cursor = ⟨44, [7]⟩) ∧
    ∃ t, read ⟨1, 0⟩ (behindTwoSymbols [255, 255, 255, 255, 7]) =
      .error (.corruptReference (-1) 2) t ∧ t.cursor = ⟨44, [7]⟩ := by
  obtain ⟨hentry, houtside, hnegative, -⟩ :=
    read_references (e := ⟨1, 0⟩) (by decide) (behindTwoSymbols []) [7]
  obtain ⟨hexplicit, hpacked⟩ := hentry 2 1 (.symbol .na) rfl rfl
  obtain ⟨-, hcorrupt⟩ := houtside 3 (by decide)
  have hminus : (⟨-1⟩ : FlagWord).packedIndex = -1 := by decide
  have hread := hnegative ⟨-1⟩ (by decide) (by decide)
  rw [hminus] at hread
  exact ⟨⟨_, hpacked (by decide), rfl⟩, ⟨_, hexplicit, rfl⟩,
    ⟨_, hcorrupt (by decide) (by decide), rfl⟩, ⟨_, hread, rfl⟩⟩

end Item

end Rds
