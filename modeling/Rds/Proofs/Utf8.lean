import Rds.Text.Utf8

namespace Rds.Utf8

/-- The bytes of a text, spelled character by character. They are those in which it is stored,
by `encode_eq_toUTF8`. -/
def encode (s : String) : List UInt8 := s.toList.flatMap String.utf8EncodeChar

theorem encode_eq_toUTF8 (s : String) : encode s = s.toUTF8.data.toList := by
  rw [String.toUTF8, ← String.utf8Encode_toList, List.utf8Encode, List.data_toByteArray, encode]

theorem lead?_two {b : UInt8} (h : 0xc2 ≤ b.toNat) (h' : b.toNat < 0xe0) :
    lead? b = some ⟨b.toNat - 0xc0, 0x80, 0xbf, 0⟩ := by
  simp only [lead?, UInt8.lt_iff_toNat_lt]
  grind

theorem lead?_three {b : UInt8} (h : 0xe0 ≤ b.toNat) (h' : b.toNat < 0xf0) :
    lead? b = some ⟨b.toNat - 0xe0, if b.toNat = 0xe0 then 0xa0 else 0x80,
      if b.toNat = 0xed then 0x9f else 0xbf, 1⟩ := by
  simp only [lead?, UInt8.lt_iff_toNat_lt, ← UInt8.toNat_inj]
  grind

theorem lead?_four {b : UInt8} (h : 0xf0 ≤ b.toNat) (h' : b.toNat < 0xf5) :
    lead? b = some ⟨b.toNat - 0xf0, if b.toNat = 0xf0 then 0x90 else 0x80,
      if b.toNat = 0xf4 then 0x8f else 0xbf, 2⟩ := by
  simp only [lead?, UInt8.lt_iff_toNat_lt, ← UInt8.toNat_inj]
  grind

theorem toNat_ofNat {n : Nat} (h : n < 256) : (UInt8.ofNat n).toNat = n :=
  UInt8.toNat_ofNat_of_lt' h

theorem continuations_cons {x : Nat} (hx : x < 0x40) (length code n : Nat) (bytes : List UInt8) :
    continuations length code (n + 1) (UInt8.ofNat (x + 0x80) :: bytes) =
      continuations (length + 1) (64 * code + x) n bytes := by
  have hn : (UInt8.ofNat (x + 0x80)).toNat = x + 0x80 := toNat_ofNat (by omega)
  have hc : isContinuation (UInt8.ofNat (x + 0x80)) := by
    simp only [isContinuation, Bool.and_eq_true, decide_eq_true_eq, UInt8.le_iff_toNat_le, hn]
    exact ⟨Nat.le_add_left _ _, Nat.le_of_lt_succ (Nat.add_lt_add_right hx 0x80)⟩
  rw [continuations, if_pos hc, hn, Nat.add_sub_cancel]

theorem first_of_lead? {b c : UInt8} {l : Lead} (hb : 0x80 ≤ b.toNat) (hl : lead? b = some l)
    (h : l.low.toNat ≤ c.toNat) (h' : c.toNat ≤ l.high.toNat) (bytes : List UInt8) :
    first b (c :: bytes) = continuations 2 (64 * l.bits + (c.toNat - 0x80)) l.more bytes := by
  have hb' : ¬ b < 0x80 := by rw [UInt8.lt_iff_toNat_lt]; exact Nat.not_lt.mpr hb
  simp only [first, if_neg hb', hl]
  exact if_pos ⟨h, h'⟩

section Sizes

variable {v : Nat} (bytes : List UInt8)

theorem first_one (h : v < 0x80) :
    first (UInt8.ofNat v) bytes = (.scalar (Char.ofNat v), bytes) := by
  have hn : (UInt8.ofNat v).toNat = v := toNat_ofNat (by omega)
  have hb : UInt8.ofNat v < 0x80 := by rw [UInt8.lt_iff_toNat_lt, hn]; exact h
  simp only [first, if_pos hb, hn]

theorem first_two (h : 0x80 ≤ v) (h' : v < 0x800) :
    first (UInt8.ofNat (v / 64 % 0x20 + 0xc0)) (UInt8.ofNat (v % 0x40 + 0x80) :: bytes) =
      (.scalar (Char.ofNat v), bytes) := by
  have hb : (UInt8.ofNat (v / 64 % 0x20 + 0xc0)).toNat = v / 64 + 0xc0 := by
    rw [toNat_ofNat (by omega)]
    omega
  have hc : (UInt8.ofNat (v % 0x40 + 0x80)).toNat = v % 0x40 + 0x80 := toNat_ofNat (by omega)
  have hl := lead?_two (b := UInt8.ofNat (v / 64 % 0x20 + 0xc0)) (by omega) (by omega)
  rw [first_of_lead? (by omega) hl]
  · have hv : 64 * (v / 64 + 0xc0 - 0xc0) + (v % 0x40 + 0x80 - 0x80) = v := by omega
    rw [continuations, hb, hc, hv]
  · simp only [hc, UInt8.reduceToNat]
    omega
  · simp only [hc, UInt8.reduceToNat]
    omega

theorem first_three (h : 0x800 ≤ v) (h' : v < 0x10000) (hs : v < 0xd800 ∨ 0xdfff < v) :
    first (UInt8.ofNat (v / 4096 % 0x10 + 0xe0)) (UInt8.ofNat (v / 64 % 0x40 + 0x80) ::
      UInt8.ofNat (v % 0x40 + 0x80) :: bytes) = (.scalar (Char.ofNat v), bytes) := by
  have hb : (UInt8.ofNat (v / 4096 % 0x10 + 0xe0)).toNat = v / 4096 + 0xe0 := by
    rw [toNat_ofNat (by omega)]
    omega
  have hc : (UInt8.ofNat (v / 64 % 0x40 + 0x80)).toNat = v / 64 % 0x40 + 0x80 :=
    toNat_ofNat (by omega)
  have hl := lead?_three (b := UInt8.ofNat (v / 4096 % 0x10 + 0xe0)) (by omega) (by omega)
  rw [first_of_lead? (by omega) hl]
  · have hv : 64 * (64 * (v / 4096 + 0xe0 - 0xe0) + (v / 64 % 0x40 + 0x80 - 0x80)) +
        v % 0x40 = v := by
      omega
    rw [continuations_cons (Nat.mod_lt _ (by decide)), continuations, hb, hc, hv]
  · rw [hb, hc]
    dsimp only
    split <;> simp only [UInt8.reduceToNat] <;> omega
  · rw [hb, hc]
    dsimp only
    split <;> simp only [UInt8.reduceToNat] <;> omega

theorem first_four (h : 0x10000 ≤ v) (h' : v < 0x110000) :
    first (UInt8.ofNat (v / 262144 % 0x08 + 0xf0)) (UInt8.ofNat (v / 4096 % 0x40 + 0x80) ::
      UInt8.ofNat (v / 64 % 0x40 + 0x80) :: UInt8.ofNat (v % 0x40 + 0x80) :: bytes) =
      (.scalar (Char.ofNat v), bytes) := by
  have hb : (UInt8.ofNat (v / 262144 % 0x08 + 0xf0)).toNat = v / 262144 + 0xf0 := by
    rw [toNat_ofNat (by omega)]
    omega
  have hc : (UInt8.ofNat (v / 4096 % 0x40 + 0x80)).toNat = v / 4096 % 0x40 + 0x80 :=
    toNat_ofNat (by omega)
  have hl := lead?_four (b := UInt8.ofNat (v / 262144 % 0x08 + 0xf0)) (by omega) (by omega)
  rw [first_of_lead? (by omega) hl]
  · have hv : 64 * (64 * (64 * (v / 262144 + 0xf0 - 0xf0) + (v / 4096 % 0x40 + 0x80 - 0x80)) +
        v / 64 % 0x40) + v % 0x40 = v := by
      omega
    rw [continuations_cons (Nat.mod_lt _ (by decide)),
      continuations_cons (Nat.mod_lt _ (by decide)), continuations, hb, hc, hv]
  · rw [hb, hc]
    dsimp only
    split <;> simp only [UInt8.reduceToNat] <;> omega
  · rw [hb, hc]
    dsimp only
    split <;> simp only [UInt8.reduceToNat] <;> omega

end Sizes

theorem first_encodeChar (c : Char) (bytes : List UInt8) :
    ∃ b tail, String.utf8EncodeChar c = b :: tail ∧
      first b (tail ++ bytes) = (.scalar c, bytes) := by
  have hc : Char.ofNat c.val.toNat = c := c.ofNat_toNat
  have hs : c.val.toNat < 0xd800 ∨ 0xdfff < c.val.toNat ∧ c.val.toNat < 0x110000 := c.valid
  unfold String.utf8EncodeChar
  generalize c.val.toNat = v at hc hs
  dsimp only
  split
  · exact ⟨_, _, rfl, by rw [← hc]; exact first_one bytes (by omega)⟩
  · split
    · exact ⟨_, _, rfl, by rw [← hc]; exact first_two bytes (by omega) (by omega)⟩
    · split
      · exact ⟨_, _, rfl, by rw [← hc]; exact first_three bytes (by omega) (by omega) (by omega)⟩
      · exact ⟨_, _, rfl, by rw [← hc]; exact first_four bytes (by omega) (by omega)⟩

theorem piecesFrom_append (front done : List Piece) (bytes : List UInt8) :
    piecesFrom (done ++ front) bytes = front.reverse ++ piecesFrom done bytes := by
  induction done, bytes using piecesFrom.induct with
  | case1 done => rw [piecesFrom, piecesFrom, List.reverse_append]
  | case2 done b bytes ih => rw [piecesFrom, piecesFrom, ← ih, List.cons_append]

theorem pieces_nil : pieces [] = [] := by
  rw [pieces, piecesFrom, List.reverse_nil]

theorem pieces_cons (b : UInt8) (bytes : List UInt8) :
    pieces (b :: bytes) = (first b bytes).1 :: pieces (first b bytes).2 := by
  rw [pieces, piecesFrom, ← List.nil_append [(first b bytes).1], piecesFrom_append,
    List.reverse_singleton, List.singleton_append, pieces]

theorem pieces_encodeChar (c : Char) (bytes : List UInt8) :
    pieces (String.utf8EncodeChar c ++ bytes) = .scalar c :: pieces bytes := by
  obtain ⟨b, tail, hc, hf⟩ := first_encodeChar c bytes
  rw [hc, List.cons_append, pieces_cons, hf]

theorem pieces_encode_append (s : String) (bytes : List UInt8) :
    pieces (encode s ++ bytes) = s.toList.map .scalar ++ pieces bytes := by
  rw [encode]
  induction s.toList with
  | nil => rfl
  | cons c cs ih =>
    rw [List.flatMap_cons, List.append_assoc, pieces_encodeChar, ih, List.map_cons,
      List.cons_append]

theorem repair_encode_append (s : String) (bytes : List UInt8) :
    repair (encode s ++ bytes) = s.toList ++ repair bytes := by
  rw [repair, pieces_encode_append, List.map_append, List.map_map]
  exact congrArg (· ++ repair bytes) (List.map_id _)

/-- A text is read back from its spelling. -/
theorem repair_encode (s : String) : repair (encode s) = s.toList := by
  have h := repair_encode_append s []
  rwa [List.append_nil, repair, repair, pieces_nil, List.map_nil, List.append_nil] at h

end Rds.Utf8
