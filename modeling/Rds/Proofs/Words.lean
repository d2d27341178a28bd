import Mathlib.Algebra.Group.Nat.Defs
import Rds.Proofs.Reading

namespace Rds

def bigEndianBytes : Nat → Nat → List UInt8
  | 0, _ => []
  | k + 1, n => bigEndianBytes k (n / 256) ++ [UInt8.ofNat n]

theorem length_bigEndianBytes (k n : Nat) : (bigEndianBytes k n).length = k := by
  induction k generalizing n with
  | zero => rfl
  | succ k ih => rw [bigEndianBytes, List.length_append, ih, List.length_singleton]

theorem bigEndian_concat (bytes : List UInt8) (b : UInt8) :
    bigEndian (bytes ++ [b]) = 256 * bigEndian bytes + b.toNat := by
  rw [bigEndian, List.foldl_append]
  rfl

theorem bigEndian_bigEndianBytes (k n : Nat) : bigEndian (bigEndianBytes k n) = n % 256 ^ k := by
  induction k generalizing n with
  | zero => rw [Nat.pow_zero, Nat.mod_one]; rfl
  | succ k ih =>
    have hb : (UInt8.ofNat n).toNat = n % 256 := rfl
    rw [bigEndianBytes, bigEndian_concat, ih, hb, Nat.pow_succ', Nat.mod_mul]
    omega

theorem bigEndianBytes_bigEndian {k : Nat} {bytes : List UInt8} (h : bytes.length = k) :
    bigEndianBytes k (bigEndian bytes) = bytes := by
  induction k generalizing bytes with
  | zero => rw [List.length_eq_zero_iff.mp h]; rfl
  | succ k ih =>
    obtain rfl | ⟨front, b, rfl⟩ := List.eq_nil_or_concat bytes
    · cases h
    · rw [List.concat_eq_append] at h ⊢
      rw [List.length_append, List.length_singleton] at h
      have hb := b.toNat_lt
      have hdiv : (256 * bigEndian front + b.toNat) / 256 = bigEndian front := by omega
      have hmod : UInt8.ofNat (256 * bigEndian front + b.toNat) = b := by
        apply UInt8.toNat_inj.mp
        rw [UInt8.toNat_ofNat']
        omega
      rw [bigEndian_concat, bigEndianBytes, hdiv, hmod, ih (Nat.succ.inj h)]

theorem bigEndian_lt {k : Nat} {bytes : List UInt8} (h : bytes.length = k) :
    bigEndian bytes < 256 ^ k := by
  rw [← bigEndianBytes_bigEndian h, bigEndian_bigEndianBytes]
  exact Nat.mod_lt _ (Nat.pow_pos (by decide))

def int32Bytes (n : Int32) : List UInt8 := bigEndianBytes 4 n.toUInt32.toNat

def word64Bytes (n : UInt64) : List UInt8 := bigEndianBytes 8 n.toNat

def lengthBytes (n : Nat) : List UInt8 := int32Bytes (Int32.ofNat n)

theorem length_int32Bytes (n : Int32) : (int32Bytes n).length = 4 := length_bigEndianBytes 4 _

theorem int32Bytes_bigEndian {bytes : List UInt8} (h : bytes.length = 4) :
    int32Bytes (UInt32.ofNat (bigEndian bytes)).toInt32 = bytes := by
  have hlt : bigEndian bytes < 2 ^ 32 := bigEndian_lt h
  rw [int32Bytes, UInt32.toUInt32_toInt32, UInt32.toNat_ofNat', Nat.mod_eq_of_lt hlt,
    bigEndianBytes_bigEndian h]

theorem length_lengthBytes (n : Nat) : (lengthBytes n).length = 4 := length_bigEndianBytes 4 _

namespace Cursor

variable {α β : Type}

/-- The reader reads the valid elements as they are spelled, and nothing else. -/
structure Spells (r : Reader α) (spell : α → List UInt8) (valid : α → Prop) : Prop where
  read : ∀ {a}, valid a → ∀ position rest,
    r ⟨position, spell a ++ rest⟩ = .ok a ⟨position + (spell a).length, rest⟩
  spelled : ∀ {c a d}, r c = .ok a d → valid a ∧ c.rest = spell a ++ d.rest

theorem Spells.eq_ok_iff {r : Reader α} {spell : α → List UInt8} {valid : α → Prop}
    (h : Spells r spell valid) {c d : Cursor} {a : α} :
    r c = .ok a d ↔
      valid a ∧ c.rest = spell a ++ d.rest ∧ d.position = c.position + (spell a).length := by
  have hread (ha : valid a) (hrest : c.rest = spell a ++ d.rest) :
      r c = .ok a ⟨c.position + (spell a).length, d.rest⟩ := by
    rw [← h.read ha, ← hrest]
  constructor
  · intro hc
    obtain ⟨ha, hrest⟩ := h.spelled hc
    refine ⟨ha, hrest, ?_⟩
    rw [hread ha hrest] at hc
    injection hc with _ hd
    rw [← hd]
  · rintro ⟨ha, hrest, hposition⟩
    rw [hread ha hrest, ← hposition]

theorem Spells.cancel {r : Reader α} {spell : α → List UInt8} {valid : α → Prop}
    (h : Spells r spell valid) {a b : α} (ha : valid a) (hb : valid b) {front back : List UInt8}
    (he : spell a ++ front = spell b ++ back) : a = b ∧ front = back := by
  have hread := h.read ha 0 front
  rw [he, h.read hb 0 back] at hread
  injection hread with hab hcursor
  injection hcursor with _ hrest
  exact ⟨hab.symm, hrest.symm⟩

theorem spells_bytes (n : Nat) : Spells (bytes n) id (·.length = n) where
  read {a} ha position rest := by
    have hn : n ≤ remaining ⟨position, a ++ rest⟩ := by
      rw [remaining, List.length_append, ha]
      exact Nat.le_add_right _ _
    rw [id_eq, bytes_ok hn, advance, List.take_left' ha, List.drop_left' ha, ha]
  spelled {c a d} h := by
    by_cases hn : n ≤ c.remaining
    · rw [bytes_ok hn] at h
      cases h
      exact ⟨front_length_eq_iff.mpr hn, (List.take_append_drop n c.rest).symm⟩
    · rw [bytes_error (Nat.lt_of_not_le hn)] at h
      cases h

theorem Spells.congr {r : Reader α} {spell : α → List UInt8} {valid valid' : α → Prop}
    (h : Spells r spell valid) (hv : ∀ a, valid a ↔ valid' a) : Spells r spell valid' where
  read ha := h.read ((hv _).mpr ha)
  spelled hc := ⟨(hv _).mp (h.spelled hc).1, (h.spelled hc).2⟩

theorem Spells.bind {r : Reader α} {f : α → Reader β} {g : β → α} {spell : α → List UInt8}
    {spell' : β → List UInt8} {valid : α → Prop} {valid' : β → Prop} (h : Spells r spell valid)
    (hf : ∀ a, valid a → Spells (f a) spell' fun b ↦ valid' b ∧ g b = a)
    (hv : ∀ b, valid' b → valid (g b)) :
    Spells (r >>= f) (fun b ↦ spell (g b) ++ spell' b) valid' where
  read {b} hb position rest := by
    rw [List.append_assoc, EStateM.bind_of_ok (h.read (hv b hb) position _),
      (hf _ (hv b hb)).read ⟨hb, rfl⟩, List.length_append, Nat.add_assoc]
  spelled {c b d} hc := by
    obtain ⟨a, t, ha, hb⟩ := EStateM.bind_eq_ok.mp hc
    obtain ⟨hvalid, hrest⟩ := h.spelled ha
    obtain ⟨⟨hvalid', rfl⟩, hrest'⟩ := (hf a hvalid).spelled hb
    exact ⟨hvalid', by rw [hrest, hrest', List.append_assoc]⟩

theorem Spells.map {r : Reader α} {spell : α → List UInt8} {valid : α → Prop} {f : α → β}
    {g : β → α} {valid' : β → Prop} (h : Spells r spell valid)
    (hf : ∀ a, valid a → valid' (f a) ∧ g (f a) = a)
    (hg : ∀ b, valid' b → valid (g b) ∧ f (g b) = b) :
    Spells (f <$> r) (fun b ↦ spell (g b)) valid' where
  read {b} hb position rest := by
    obtain ⟨hv, he⟩ := hg b hb
    rw [map_eq_pure_bind, EStateM.bind_of_ok (h.read hv position rest), he]
    rfl
  spelled {c b d} hc := by
    obtain ⟨a, ha, rfl⟩ := EStateM.map_eq_ok.mp hc
    obtain ⟨hv, hrest⟩ := h.spelled ha
    obtain ⟨hv', he⟩ := hf a hv
    exact ⟨hv', he.symm ▸ hrest⟩

theorem spells_int32 : Spells int32 int32Bytes fun _ ↦ True := by
  rw [int32, ← map_eq_pure_bind]
  refine (spells_bytes 4).map (g := int32Bytes)
    (fun bytes h ↦ ⟨trivial, int32Bytes_bigEndian h⟩) fun n _ ↦ ⟨length_bigEndianBytes 4 _, ?_⟩
  have hlt : n.toUInt32.toNat < 256 ^ 4 := n.toUInt32.toNat_lt
  rw [int32Bytes, bigEndian_bigEndianBytes, Nat.mod_eq_of_lt hlt, UInt32.ofNat_toNat,
    Int32.toInt32_toUInt32]

theorem spells_word64 : Spells word64 word64Bytes fun _ ↦ True := by
  rw [word64, ← map_eq_pure_bind]
  refine (spells_bytes 8).map (g := word64Bytes) (fun bytes h ↦ ⟨trivial, ?_⟩) fun n _ ↦
    ⟨length_bigEndianBytes 8 _, ?_⟩
  · have hlt : bigEndian bytes < 2 ^ 64 := bigEndian_lt h
    rw [word64Bytes, UInt64.toNat_ofNat', Nat.mod_eq_of_lt hlt, bigEndianBytes_bigEndian h]
  · have hlt : n.toNat < 256 ^ 8 := n.toNat_lt
    rw [word64Bytes, bigEndian_bigEndianBytes, Nat.mod_eq_of_lt hlt, UInt64.ofNat_toNat]

theorem nonneg_ofNat {n : Nat} (h : n < 2 ^ 31) : ¬ Int32.ofNat n < 0 := by
  rw [Int32.lt_iff_toInt_lt, Int32.toInt_ofNat_of_lt h, Int32.toInt_zero]
  omega

theorem ofNat_clamp {n : Int32} (h : ¬ n < 0) : Int32.ofNat n.toNatClampNeg = n :=
  Int32.ofNat_toNatClampNeg n (Int32.not_lt.mp h)

theorem spells_length : Spells length lengthBytes (· < 2 ^ 31) where
  read {n} hn position rest := by
    rw [length, lengthBytes, EStateM.bind_of_ok (spells_int32.read trivial position rest),
      if_neg (nonneg_ofNat hn), Int32.toNatClampNeg_ofNat_of_lt hn]
    rfl
  spelled {c n d} hc := by
    obtain ⟨i, t, hi, hc⟩ := EStateM.bind_eq_ok.mp hc
    obtain ⟨-, hrest⟩ := spells_int32.spelled hi
    split at hc
    · exact absurd hc EStateM.throw_ne_ok
    · next hneg =>
      rw [EStateM.pure_eq_ok] at hc
      obtain ⟨rfl, rfl⟩ := hc
      exact ⟨i.toNatClampNeg_lt, by rw [lengthBytes, ofNat_clamp hneg, hrest]⟩

end Cursor

namespace Item

open Cursor

variable {α : Type}

def doubleBytes (x : Double) : List UInt8 := word64Bytes x.bits

def complexBytes (z : Complex) : List UInt8 := doubleBytes z.re ++ doubleBytes z.im

def countedBytes (spell : α → List UInt8) (xs : List α) : List UInt8 :=
  lengthBytes xs.length ++ xs.flatMap spell

theorem length_doubleBytes (x : Double) : (doubleBytes x).length = 8 := length_bigEndianBytes 8 _

theorem length_complexBytes (z : Complex) : (complexBytes z).length = 16 := by
  rw [complexBytes, List.length_append, length_doubleBytes, length_doubleBytes]

theorem length_countedBytes {spell : α → List UInt8} {k : Nat}
    (hk : ∀ x, (spell x).length = k) (xs : List α) :
    (countedBytes spell xs).length = 4 + k * xs.length := by
  have hflat : (xs.flatMap spell).length = k * xs.length := by
    induction xs with
    | nil => rfl
    | cons x xs ih =>
      rw [List.flatMap_cons, List.length_append, hk, ih, List.length_cons, Nat.mul_succ,
        Nat.add_comm]
  rw [countedBytes, List.length_append, length_lengthBytes, hflat]

theorem spells_readDouble : Spells readDouble doubleBytes fun _ ↦ True := by
  rw [readDouble, ← map_eq_pure_bind]
  exact spells_word64.map (g := Double.bits) (fun _ _ ↦ ⟨trivial, rfl⟩) fun _ _ ↦ ⟨trivial, rfl⟩

theorem spells_readComplex : Spells readComplex complexBytes fun _ ↦ True := by
  refine spells_readDouble.bind (g := Complex.re) (fun re _ ↦ ?_) fun _ _ ↦ trivial
  rw [← map_eq_pure_bind]
  refine spells_readDouble.map (g := Complex.im) (fun im _ ↦ ⟨⟨trivial, rfl⟩, rfl⟩) ?_
  rintro z ⟨-, rfl⟩
  exact ⟨trivial, rfl⟩

theorem length_ne_missing {n : Nat} (h : n < 2 ^ 31) : Int32.ofNat n ≠ missingLength := by
  intro he
  exact Cursor.nonneg_ofNat h (he ▸ by decide)

section Many

variable {r : Cursor.Reader α} {spell : α → List UInt8} {valid : α → Prop}
  (h : Spells r spell valid)

include h

theorem readMany_read (done xs : List α) (hx : ∀ x ∈ xs, valid x) (position : Nat)
    (rest : List UInt8) :
    readMany r done xs.length ⟨position, xs.flatMap spell ++ rest⟩ =
      .ok (done.reverse ++ xs) ⟨position + (xs.flatMap spell).length, rest⟩ := by
  induction xs generalizing done position with
  | nil =>
    rw [List.append_nil]
    rfl
  | cons x xs ih =>
    have hv := hx x List.mem_cons_self
    rw [List.length_cons, readMany, List.flatMap_cons, List.append_assoc,
      EStateM.bind_of_ok (h.read hv position _),
      ih (x :: done) (fun y hy ↦ hx y (List.mem_cons_of_mem _ hy)), List.reverse_cons,
      List.append_assoc, List.singleton_append, List.length_append, Nat.add_assoc]

theorem readMany_spelled {n : Nat} {done ys : List α} {c d : Cursor}
    (hc : readMany r done n c = .ok ys d) :
    ∃ xs, ys = done.reverse ++ xs ∧ xs.length = n ∧ (∀ x ∈ xs, valid x) ∧
      c.rest = xs.flatMap spell ++ d.rest := by
  induction n generalizing done c with
  | zero =>
    rw [readMany, EStateM.pure_eq_ok] at hc
    exact ⟨[], by rw [List.append_nil, hc.1], rfl, nofun, by rw [hc.2]; rfl⟩
  | succ n ih =>
    obtain ⟨x, t, hx, hc⟩ := EStateM.bind_eq_ok.mp hc
    obtain ⟨hv, hrest⟩ := h.spelled hx
    obtain ⟨xs, rfl, rfl, hxs, hrest'⟩ := ih hc
    refine ⟨x :: xs, ?_, rfl, ?_, ?_⟩
    · rw [List.reverse_cons, List.append_assoc, List.singleton_append]
    · exact List.forall_mem_cons.mpr ⟨hv, hxs⟩
    · rw [hrest, hrest', List.flatMap_cons, List.append_assoc]

theorem spells_readCounted :
    Spells (readCounted r) (countedBytes spell) fun xs ↦
      xs.length < 2 ^ 31 ∧ ∀ x ∈ xs, valid x := by
  refine spells_length.bind (g := List.length) (fun n hn ↦ ⟨?_, ?_⟩) fun _ hx ↦ hx.1
  · rintro xs ⟨hx, rfl⟩ position rest
    exact readMany_read h [] xs hx.2 position rest
  · intro c ys d hc
    obtain ⟨xs, rfl, rfl, hxs, hrest⟩ := readMany_spelled h hc
    exact ⟨⟨⟨hn, hxs⟩, rfl⟩, hrest⟩

end Many

theorem spells_readRaw :
    Spells readRaw (fun bytes ↦ lengthBytes bytes.length ++ bytes) fun bytes ↦
      bytes.length < 2 ^ 31 :=
  spells_length.bind (g := List.length)
    (fun n hn ↦ (spells_bytes n).congr fun _ ↦ ⟨fun h ↦ ⟨h ▸ hn, h⟩, And.right⟩) fun _ hx ↦ hx

theorem readMany_map {β : Type} (r : Cursor.Reader α) (f : α → β) (done : List α) (n : Nat) :
    readMany (f <$> r) (done.map f) n = List.map f <$> readMany r done n := by
  induction n generalizing done with
  | zero => simp only [readMany, map_pure, List.map_reverse]
  | succ n ih =>
    simp only [readMany, map_bind, bind_map_left]
    exact congrArg (r >>= ·) (funext fun a ↦ ih (a :: done))

theorem readCounted_map {β : Type} (r : Cursor.Reader α) (f : α → β) :
    readCounted (f <$> r) = List.map f <$> readCounted r := by
  simp only [readCounted, map_bind]
  exact congrArg (Cursor.length >>= ·) (funext fun n ↦ readMany_map r f [] n)

theorem onCursor_read {r : Cursor.Reader α} {spell : α → List UInt8} {valid : α → Prop}
    (h : Spells r spell valid) {a : α} (ha : valid a) {s : Progress} {rest : List UInt8}
    (hs : s.cursor.rest = spell a ++ rest) :
    onCursor r s = .ok a { s with cursor := ⟨s.cursor.position + (spell a).length, rest⟩ } := by
  obtain ⟨⟨position, bytes⟩, table, log⟩ := s
  obtain rfl := hs
  rw [onCursor, h.read ha]

theorem onCursor_spelled {r : Cursor.Reader α} {spell : α → List UInt8} {valid : α → Prop}
    (h : Spells r spell valid) {s t : Progress} {a : α} (hs : onCursor r s = .ok a t) :
    valid a ∧ s.cursor.rest = spell a ++ t.cursor.rest := by
  obtain ⟨d, hd, rfl⟩ := onCursor_eq_ok hs
  exact h.spelled hd

theorem readLogical_eq : readLogical = Logical.ofInt32 <$> int32 := by
  rw [readLogical, map_eq_pure_bind]

end Item

end Rds
