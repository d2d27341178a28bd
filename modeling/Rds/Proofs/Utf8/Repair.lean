import Mathlib.Data.List.Basic
import Rds.Proofs.Utf8
import Rds.Proofs.Wire

namespace Rds.Utf8

theorem encode_ofList (cs : List Char) :
    encode (String.ofList cs) = cs.flatMap String.utf8EncodeChar := by
  rw [encode, String.toList_ofList]

/-- The bytes in `p`, one at least, begin the spelling of some character. -/
def Begins (p : List UInt8) : Prop := p ≠ [] ∧ ∃ c : Char, p <+: String.utf8EncodeChar c

/-- `p` is the longest front of `bytes` that begins a character, or one byte where no front does. -/
structure IsSubpart (p bytes : List UInt8) : Prop where
  front : p <+: bytes
  begins : p.length = 1 ∨ Begins p
  maximal : ∀ q, q <+: bytes → q.length = 1 ∨ Begins q → q.length ≤ p.length

theorem IsSubpart.unique {p q bytes : List UInt8} (hp : IsSubpart p bytes)
    (hq : IsSubpart q bytes) : p = q := by
  have hpq := hq.maximal p hp.front hp.begins
  have hqp := hp.maximal q hq.front hq.begins
  exact (List.prefix_of_prefix_length_le hp.front hq.front hpq).eq_of_length
    (Nat.le_antisymm hpq hqp)

/-- A text that keeps every character and shows each maximal subpart in between as U+FFFD. -/
inductive Repaired : List UInt8 → List Char → Prop
  | nil : Repaired [] []
  | char (c : Char) {bytes : List UInt8} {cs : List Char} :
    Repaired bytes cs → Repaired (String.utf8EncodeChar c ++ bytes) (c :: cs)
  | subpart {p bytes : List UInt8} {cs : List Char} :
    (∀ c, ¬ String.utf8EncodeChar c <+: p ++ bytes) → IsSubpart p (p ++ bytes) →
    Repaired bytes cs → Repaired (p ++ bytes) ('\uFFFD' :: cs)

section Encoding

theorem val_ofNat {v : Nat} (h : v.isValidChar) : (Char.ofNat v).val.toNat = v := by
  rw [Char.ofNat, dif_pos h]
  rfl

theorem ofNat_eq {b : UInt8} {n : Nat} (h : n = b.toNat) : UInt8.ofNat n = b := by
  rw [h, UInt8.ofNat_toNat]

variable {b c d e : UInt8}

theorem utf8EncodeChar_one (h : b.toNat < 0x80) :
    String.utf8EncodeChar (Char.ofNat b.toNat) = [b] := by
  have hv : (Char.ofNat b.toNat).val.toNat = b.toNat := val_ofNat (.inl (by omega))
  rw [String.utf8EncodeChar, hv, if_pos (by omega), UInt8.ofNat_toNat]

theorem utf8EncodeChar_two (hb : 0xc2 ≤ b.toNat) (hb' : b.toNat < 0xe0)
    (hc : 0x80 ≤ c.toNat) (hc' : c.toNat ≤ 0xbf) :
    String.utf8EncodeChar (Char.ofNat (64 * (b.toNat - 0xc0) + (c.toNat - 0x80))) = [b, c] := by
  have hv := val_ofNat (v := 64 * (b.toNat - 0xc0) + (c.toNat - 0x80)) (.inl (by omega))
  rw [String.utf8EncodeChar, hv, if_neg (by omega), if_pos (by omega), ofNat_eq (b := b) (by omega),
    ofNat_eq (b := c) (by omega)]

theorem utf8EncodeChar_three (hb : 0xe0 ≤ b.toNat) (hb' : b.toNat < 0xf0)
    (hc : (if b.toNat = 0xe0 then 0xa0 else 0x80) ≤ c.toNat)
    (hc' : c.toNat ≤ if b.toNat = 0xed then 0x9f else 0xbf)
    (hd : 0x80 ≤ d.toNat) (hd' : d.toNat ≤ 0xbf) :
    String.utf8EncodeChar (Char.ofNat
      (64 * (64 * (b.toNat - 0xe0) + (c.toNat - 0x80)) + (d.toNat - 0x80))) = [b, c, d] := by
  have hlow : 0x80 ≤ c.toNat ∧ (b.toNat = 0xe0 → 0xa0 ≤ c.toNat) := by split at hc <;> omega
  have hhigh : c.toNat ≤ 0xbf ∧ (b.toNat = 0xed → c.toNat ≤ 0x9f) := by split at hc' <;> omega
  have hv := val_ofNat (v := 64 * (64 * (b.toNat - 0xe0) + (c.toNat - 0x80)) + (d.toNat - 0x80))
    (by rw [Nat.isValidChar]; omega)
  rw [String.utf8EncodeChar, hv, if_neg (by omega), if_neg (by omega), if_pos (by omega),
    ofNat_eq (b := b) (by omega), ofNat_eq (b := c) (by omega), ofNat_eq (b := d) (by omega)]

theorem utf8EncodeChar_four (hb : 0xf0 ≤ b.toNat) (hb' : b.toNat < 0xf5)
    (hc : (if b.toNat = 0xf0 then 0x90 else 0x80) ≤ c.toNat)
    (hc' : c.toNat ≤ if b.toNat = 0xf4 then 0x8f else 0xbf)
    (hd : 0x80 ≤ d.toNat) (hd' : d.toNat ≤ 0xbf) (he : 0x80 ≤ e.toNat) (he' : e.toNat ≤ 0xbf) :
    String.utf8EncodeChar (Char.ofNat (64 * (64 * (64 * (b.toNat - 0xf0) + (c.toNat - 0x80)) +
      (d.toNat - 0x80)) + (e.toNat - 0x80))) = [b, c, d, e] := by
  have hlow : 0x80 ≤ c.toNat ∧ (b.toNat = 0xf0 → 0x90 ≤ c.toNat) := by split at hc <;> omega
  have hhigh : c.toNat ≤ 0xbf ∧ (b.toNat = 0xf4 → c.toNat ≤ 0x8f) := by split at hc' <;> omega
  have hv := val_ofNat (v := 64 * (64 * (64 * (b.toNat - 0xf0) + (c.toNat - 0x80)) +
    (d.toNat - 0x80)) + (e.toNat - 0x80)) (.inr (by omega))
  rw [String.utf8EncodeChar, hv, if_neg (by omega), if_neg (by omega), if_neg (by omega),
    ofNat_eq (b := b) (by omega), ofNat_eq (b := c) (by omega), ofNat_eq (b := d) (by omega),
    ofNat_eq (b := e) (by omega)]

theorem lead?_cases {l : Lead} (h : lead? b = some l) :
    (0xc2 ≤ b.toNat ∧ b.toNat < 0xe0) ∨ (0xe0 ≤ b.toNat ∧ b.toNat < 0xf0) ∨
      (0xf0 ≤ b.toNat ∧ b.toNat < 0xf5) := by
  simp only [lead?, UInt8.lt_iff_toNat_lt, ← UInt8.toNat_inj, UInt8.reduceToNat] at h
  grind

def extend (code : Nat) (b : UInt8) : Nat := 64 * code + (b.toNat - 0x80)

theorem extend_eq (code : Nat) (b : UInt8) : extend code b = 64 * code + (b.toNat - 0x80) := rfl

theorem utf8EncodeChar_lead {l : Lead} (hl : lead? b = some l) (hlow : l.low.toNat ≤ c.toNat)
    (hhigh : c.toNat ≤ l.high.toNat) {tail : List UInt8} (hm : tail.length = l.more)
    (ht : ∀ t ∈ tail, isContinuation t) :
    String.utf8EncodeChar (Char.ofNat (tail.foldl extend (extend l.bits c))) = b :: c :: tail := by
  have hrange (t : UInt8) (h : t ∈ tail) : 0x80 ≤ t.toNat ∧ t.toNat ≤ 0xbf := by
    simpa [isContinuation, UInt8.le_iff_toNat_le] using ht t h
  obtain ⟨h, h'⟩ | ⟨h, h'⟩ | ⟨h, h'⟩ := lead?_cases hl
  · obtain rfl := Option.some.inj (hl.symm.trans (lead?_two h h'))
    obtain rfl := List.length_eq_zero_iff.mp hm
    exact utf8EncodeChar_two h h' hlow hhigh
  · obtain rfl := Option.some.inj (hl.symm.trans (lead?_three h h'))
    obtain ⟨d, rfl⟩ := List.length_eq_one_iff.mp hm
    obtain ⟨hd, hd'⟩ := hrange d List.mem_cons_self
    simp only [apply_ite UInt8.toNat, UInt8.reduceToNat] at hlow hhigh
    exact utf8EncodeChar_three h h' hlow hhigh hd hd'
  · obtain rfl := Option.some.inj (hl.symm.trans (lead?_four h h'))
    obtain ⟨d, e, rfl⟩ := List.length_eq_two.mp hm
    obtain ⟨hd, hd'⟩ := hrange d List.mem_cons_self
    obtain ⟨he, he'⟩ := hrange e (List.mem_cons_of_mem _ List.mem_cons_self)
    simp only [apply_ite UInt8.toNat, UInt8.reduceToNat] at hlow hhigh
    exact utf8EncodeChar_four h h' hlow hhigh hd hd' he he'

end Encoding

section First

variable {b c : UInt8} {l : Lead} {tail : List UInt8}

theorem continuations_append (ht : ∀ t ∈ tail, isContinuation t) (length code n : Nat)
    (bytes : List UInt8) :
    continuations length code (tail.length + n) (tail ++ bytes) =
      continuations (length + tail.length) (tail.foldl extend code) n bytes := by
  induction tail generalizing length code with
  | nil => rw [List.length_nil, Nat.zero_add, List.nil_append, Nat.add_zero, List.foldl_nil]
  | cons t tail ih =>
    obtain ⟨h, ht⟩ := List.forall_mem_cons.mp ht
    have hlen : length + 1 + tail.length = length + (tail.length + 1) := by
      rw [Nat.add_assoc, Nat.add_comm 1]
    rw [List.length_cons, Nat.succ_add, List.cons_append, continuations, if_pos h, ih ht, hlen,
      List.foldl_cons, extend_eq]

theorem exists_continuations (n : Nat) (bytes : List UInt8) :
    ∃ tail rest, bytes = tail ++ rest ∧ (∀ t ∈ tail, isContinuation t) ∧ ∃ k,
      n = tail.length + k ∧ (k = 0 ∨ ∀ x ∈ rest.head?, ¬ isContinuation x) := by
  induction n generalizing bytes with
  | zero => exact ⟨[], bytes, rfl, nofun, 0, rfl, .inl rfl⟩
  | succ n ih =>
    cases bytes with
    | nil => exact ⟨[], [], rfl, nofun, n + 1, (Nat.zero_add _).symm, .inr nofun⟩
    | cons b bytes =>
      by_cases hb : isContinuation b
      · obtain ⟨tail, rest, rfl, ht, k, rfl, hk⟩ := ih bytes
        exact ⟨b :: tail, rest, rfl, List.forall_mem_cons.mpr ⟨hb, ht⟩, k,
          (Nat.succ_add _ _).symm, hk⟩
      · refine ⟨[], b :: bytes, rfl, nofun, n + 1, (Nat.zero_add _).symm, .inr ?_⟩
        rintro x ⟨⟩
        exact hb

theorem continuations_fault {n : Nat} {rest : List UInt8}
    (h : ∀ x ∈ rest.head?, ¬ isContinuation x) (length code : Nat) :
    ∃ piece, continuations length code (n + 1) rest = (piece, rest) ∧ ∀ c, piece ≠ .scalar c := by
  cases rest with
  | nil => exact ⟨.cut, rfl, nofun⟩
  | cons x rest => exact ⟨.broken length, if_neg (h x rfl), nofun⟩

theorem first_second (hb : ¬ b < 0x80) (hl : lead? b = some l) (hc : ¬ (l.low ≤ c ∧ c ≤ l.high))
    (rest : List UInt8) : first b (c :: rest) = (.broken 1, c :: rest) := by
  simp only [first, if_neg hb, hl, if_neg hc]

theorem first_lead (hb : ¬ b < 0x80) (hl : lead? b = none) (rest : List UInt8) :
    first b rest = (.broken 1, rest) := by
  simp only [first, if_neg hb, hl]

theorem first_alone (hb : ¬ b < 0x80) (hl : lead? b = some l) : first b [] = (.cut, []) := by
  simp only [first, if_neg hb, hl]

/-- The first piece is no character: `b :: tail` is all that can be read of one. -/
structure Faulty (b : UInt8) (tail rest : List UInt8) : Prop where
  unread : ∃ piece, first b (tail ++ rest) = (piece, rest) ∧ ∀ c, piece ≠ .scalar c
  stuck : ∀ x ∈ rest.head?, ∀ more c rest', first b (tail ++ x :: more) ≠ (.scalar c, rest')
  begins : tail = [] ∨ Begins (b :: tail)

theorem faulty_nil {rest : List UInt8} {piece : Piece} (h : first b rest = (piece, rest))
    (hp : ∀ c, piece ≠ .scalar c)
    (hs : ∀ x ∈ rest.head?, ∀ more, first b (x :: more) = (.broken 1, x :: more)) :
    Faulty b [] rest where
  unread := ⟨piece, h, hp⟩
  stuck x hx more c rest' hf := by
    rw [List.nil_append, hs x hx] at hf
    cases hf
  begins := .inl rfl

section Second

variable (hl : lead? b = some l) (hlow : l.low.toNat ≤ c.toNat) (hhigh : c.toNat ≤ l.high.toNat)
  (ht : ∀ t ∈ tail, isContinuation t)

include hl hlow hhigh ht

theorem first_seq {k : Nat} (hk : l.more = tail.length + k) (rest : List UInt8) :
    first b (c :: (tail ++ rest)) =
      continuations (2 + tail.length) (tail.foldl extend (extend l.bits c)) k rest := by
  have hb : 0x80 ≤ b.toNat := by
    obtain h | h | h := lead?_cases hl <;> omega
  rw [first_of_lead? hb hl hlow hhigh, hk, continuations_append ht, ← extend_eq]

theorem first_broken {k : Nat} (hk : l.more = tail.length + (k + 1)) {rest : List UInt8}
    (hr : ∀ x ∈ rest.head?, ¬ isContinuation x) :
    ∃ piece, first b (c :: (tail ++ rest)) = (piece, rest) ∧ ∀ c, piece ≠ .scalar c := by
  rw [first_seq hl hlow hhigh ht hk]
  exact continuations_fault hr _ _

theorem exists_completed {k : Nat} (hk : l.more = tail.length + k) :
    ∃ d : Char, String.utf8EncodeChar d = b :: c :: (tail ++ List.replicate k 0x80) := by
  have hlength : (tail ++ List.replicate k 0x80).length = l.more := by
    rw [List.length_append, List.length_replicate, hk]
  refine ⟨_, utf8EncodeChar_lead hl hlow hhigh hlength fun t h ↦ ?_⟩
  obtain h | h := List.mem_append.mp h
  · exact ht t h
  · rw [List.eq_of_mem_replicate h]
    decide

theorem faulty_cons {k : Nat} (hk : l.more = tail.length + (k + 1)) {rest : List UInt8}
    (hr : ∀ x ∈ rest.head?, ¬ isContinuation x) : Faulty b (c :: tail) rest where
  unread := first_broken hl hlow hhigh ht hk hr
  stuck x hx more d rest' hf := by
    have hmore : ∀ y ∈ (x :: more).head?, ¬ isContinuation y := by
      rintro y ⟨⟩
      exact hr x hx
    obtain ⟨piece, hp, hne⟩ := first_broken hl hlow hhigh ht hk hmore
    rw [List.cons_append, hp] at hf
    cases hf
    exact hne d rfl
  begins := by
    obtain ⟨d, hd⟩ := exists_completed hl hlow hhigh ht hk
    exact .inr ⟨List.cons_ne_nil _ _, d, List.replicate (k + 1) 0x80, hd.symm⟩

end Second

theorem first_cases (b : UInt8) (bytes : List UInt8) :
    (∃ d : Char, String.utf8EncodeChar d <+: b :: bytes) ∨
      ∃ tail rest, bytes = tail ++ rest ∧ Faulty b tail rest := by
  by_cases hb : b < 0x80
  · exact .inl ⟨_, bytes, by rw [utf8EncodeChar_one (UInt8.lt_iff_toNat_lt.mp hb)]; rfl⟩
  · cases hl : lead? b with
    | none =>
      have h := first_lead hb hl
      exact .inr ⟨[], bytes, rfl, faulty_nil (h bytes) nofun fun x _ more ↦ h (x :: more)⟩
    | some l =>
      cases bytes with
      | nil => exact .inr ⟨[], [], rfl, faulty_nil (first_alone hb hl) nofun nofun⟩
      | cons c bytes =>
        by_cases hc : l.low ≤ c ∧ c ≤ l.high
        · obtain ⟨tail, rest, rfl, ht, k, hk, hr⟩ := exists_continuations l.more bytes
          cases k with
          | zero =>
            obtain ⟨d, hd⟩ := exists_completed hl hc.1 hc.2 ht hk
            rw [List.replicate_zero, List.append_nil] at hd
            exact .inl ⟨d, rest, by rw [hd]; rfl⟩
          | succ k =>
            have hr := hr.resolve_left (Nat.succ_ne_zero k)
            exact .inr ⟨c :: tail, rest, rfl, faulty_cons hl hc.1 hc.2 ht hk hr⟩
        · refine .inr ⟨[], c :: bytes, rfl, faulty_nil (first_second hb hl hc bytes) nofun ?_⟩
          rintro x ⟨⟩
          exact first_second hb hl hc

theorem first_of_spelled {bytes rest : List UInt8} {d : Char}
    (h : b :: bytes = String.utf8EncodeChar d ++ rest) : first b bytes = (.scalar d, rest) := by
  obtain ⟨b', tail, hd, hf⟩ := first_encodeChar d rest
  rw [hd, List.cons_append] at h
  obtain ⟨rfl, rfl⟩ := List.cons.inj h
  exact hf

namespace Faulty

variable {rest : List UInt8}

theorem unspelled (h : Faulty b tail rest) (d : Char) :
    ¬ String.utf8EncodeChar d <+: b :: (tail ++ rest) := by
  rintro ⟨back, hd⟩
  obtain ⟨piece, hp, hne⟩ := h.unread
  rw [first_of_spelled hd.symm] at hp
  cases hp
  exact hne d rfl

theorem isSubpart (h : Faulty b tail rest) : IsSubpart (b :: tail) (b :: (tail ++ rest)) where
  front := List.prefix_append (b :: tail) rest
  begins := h.begins.imp (fun ht ↦ by rw [ht]; rfl) id
  maximal q hq hb := by
    by_contra hlt
    have hlt := Nat.lt_of_not_le hlt
    obtain ⟨back, rfl⟩ : b :: tail <+: q :=
      List.prefix_of_prefix_length_le (List.prefix_append (b :: tail) rest) hq (Nat.le_of_lt hlt)
    cases back with
    | nil => exact Nat.lt_irrefl _ (List.append_nil (b :: tail) ▸ hlt)
    | cons x back =>
      have hx : x ∈ rest.head? := by
        obtain ⟨more, rfl⟩ := (List.prefix_append_right_inj (b :: tail)).mp hq
        rfl
      obtain h1 | ⟨-, d, more, hd⟩ := hb
      · simp only [List.cons_append, List.length_cons, List.length_append] at h1
        omega
      · refine h.stuck x hx (back ++ more) d [] (first_of_spelled ?_)
        rw [List.append_nil, ← hd, List.append_assoc, List.cons_append, List.cons_append]

theorem char_unread (h : Faulty b tail rest) :
    ∃ piece : Piece, piece.char = '\uFFFD' ∧ (∀ c, piece ≠ .scalar c) ∧
      pieces (b :: (tail ++ rest)) = piece :: pieces rest := by
  obtain ⟨piece, hp, hne⟩ := h.unread
  refine ⟨piece, ?_, hne, by rw [pieces_cons, hp]⟩
  cases piece with
  | scalar c => exact absurd rfl (hne c)
  | broken _ | cut => rfl

theorem repair_cons (h : Faulty b tail rest) :
    repair (b :: (tail ++ rest)) = '\uFFFD' :: repair rest := by
  obtain ⟨piece, hc, -, hp⟩ := h.char_unread
  rw [repair, hp, List.map_cons, hc, repair]

end Faulty

end First

/-- A byte sequence is built from its end, by characters and by what can be read of none. -/
@[elab_as_elim]
theorem induction_pieces {motive : List UInt8 → Prop} (nil : motive [])
    (char : ∀ c bytes, motive bytes → motive (String.utf8EncodeChar c ++ bytes))
    (faulty : ∀ b tail rest, Faulty b tail rest → motive rest → motive (b :: (tail ++ rest)))
    (bytes : List UInt8) : motive bytes := by
  induction hn : bytes.length using Nat.strongRecOn generalizing bytes with
  | ind n ih =>
    subst hn
    cases bytes with
    | nil => exact nil
    | cons b bytes =>
      obtain ⟨c, rest, hc⟩ | ⟨tail, rest, rfl, h⟩ := first_cases b bytes
      · have hlt : rest.length < (b :: bytes).length := by
          rw [← hc, List.length_append, String.length_utf8EncodeChar]
          exact Nat.lt_add_of_pos_left c.utf8Size_pos
        rw [← hc]
        exact char c rest (ih _ hlt rest rfl)
      · have hlt : rest.length < (b :: (tail ++ rest)).length := by
          rw [List.length_cons, List.length_append]
          omega
        exact faulty b tail rest h (ih _ hlt rest rfl)

section Text

variable (c : Char) (bytes : List UInt8)

theorem repair_encodeChar :
    repair (String.utf8EncodeChar c ++ bytes) = c :: repair bytes := by
  rw [repair, pieces_encodeChar, List.map_cons, repair, Piece.char]

theorem faultFrom?_eq_none {ps : List Piece} (offset : Nat) :
    faultFrom? offset ps = none ↔ ∃ cs : List Char, ps = cs.map .scalar := by
  induction ps generalizing offset with
  | nil => exact ⟨fun _ ↦ ⟨[], rfl⟩, fun _ ↦ rfl⟩
  | cons p ps ih =>
    cases p with
    | scalar c =>
      rw [faultFrom?, ih]
      constructor
      · rintro ⟨cs, rfl⟩
        exact ⟨c :: cs, rfl⟩
      · rintro ⟨_ | ⟨d, cs⟩, h⟩
        · cases h
        · exact ⟨cs, (List.cons.inj h).2⟩
    | broken _ | cut =>
      refine ⟨nofun, ?_⟩
      rintro ⟨_ | ⟨d, cs⟩, h⟩ <;> cases h

theorem eq_of_pieces {cs : List Char} (h : pieces bytes = cs.map .scalar) :
    bytes = cs.flatMap String.utf8EncodeChar := by
  induction bytes using induction_pieces generalizing cs with
  | nil =>
    rw [pieces_nil] at h
    rw [List.map_eq_nil_iff.mp h.symm, List.flatMap_nil]
  | char d bytes ih =>
    rw [pieces_encodeChar] at h
    cases cs with
    | nil => cases h
    | cons e cs =>
      obtain ⟨hd, hrest⟩ := List.cons.inj h
      cases hd
      rw [List.flatMap_cons, ← ih hrest]
  | faulty b tail rest hf ih =>
    obtain ⟨piece, -, hne, hp⟩ := hf.char_unread
    rw [hp] at h
    cases cs with
    | nil => cases h
    | cons e cs => exact absurd (List.cons.inj h).1 (hne e)

theorem fault?_eq_none : fault? bytes = none ↔ ∃ s, bytes = encode s := by
  rw [fault?, faultFrom?_eq_none]
  constructor
  · rintro ⟨cs, h⟩
    exact ⟨String.ofList cs, by rw [encode_ofList, eq_of_pieces bytes h]⟩
  · rintro ⟨s, rfl⟩
    have h := pieces_encode_append s []
    rw [List.append_nil, pieces_nil, List.append_nil] at h
    exact ⟨s.toList, h⟩

theorem repaired_repair : Repaired bytes (repair bytes) := by
  induction bytes using induction_pieces with
  | nil =>
    rw [repair, pieces_nil]
    exact .nil
  | char c bytes ih =>
    rw [repair_encodeChar]
    exact .char c ih
  | faulty b tail rest h ih =>
    rw [h.repair_cons]
    exact .subpart (p := b :: tail) h.unspelled h.isSubpart ih

theorem Repaired.eq_repair {bytes : List UInt8} {cs : List Char} (h : Repaired bytes cs) :
    cs = repair bytes := by
  induction h with
  | nil => rw [repair, pieces_nil, List.map_nil]
  | char c _ ih => rw [repair_encodeChar, ih]
  | @subpart p bytes cs hc hp _ ih =>
    cases p with
    | nil =>
      obtain h | ⟨h, -⟩ := hp.begins
      · cases h
      · exact absurd rfl h
    | cons b tail =>
      obtain ⟨c, hfront⟩ | ⟨tail', rest, he, h⟩ := first_cases b (tail ++ bytes)
      · exact absurd hfront (hc c)
      · rw [List.cons_append, he] at hp
        obtain ⟨-, rfl⟩ := List.cons.inj (hp.unique h.isSubpart)
        obtain rfl := List.append_cancel_left he
        rw [List.cons_append, h.repair_cons, ih]

theorem repaired_iff {cs : List Char} : Repaired bytes cs ↔ cs = repair bytes :=
  ⟨Repaired.eq_repair, fun h ↦ h ▸ repaired_repair bytes⟩

end Text

def decode (bytes : List UInt8) : String := String.ofList (repair bytes)

theorem toList_decode (bytes : List UInt8) : (decode bytes).toList = repair bytes :=
  String.toList_ofList

theorem decode_encode_append (s : String) (bytes : List UInt8) :
    decode (encode s ++ bytes) = s ++ decode bytes := by
  rw [decode, repair_encode_append, String.ofList_append, String.ofList_toList, decode]

theorem decode_encode (s : String) : decode (encode s) = s := by
  rw [decode, repair_encode, String.ofList_toList]

end Rds.Utf8

namespace Rds.Item

open Utf8 Wire

theorem readChars_eq_text {origin o : Origin} {s t : Progress} {text : String} :
    readChars origin s = .ok (.text o text) t ↔
      o = origin ∧ ∃ payload : List UInt8, payload.length < 2 ^ 31 ∧
        s.cursor.rest = lengthBytes payload.length ++ (payload ++ t.cursor.rest) ∧
        text = decode payload ∧ t.cursor.position = s.cursor.position + 4 + payload.length ∧
        t.table = s.table ∧ t.log = ((fault? payload).map Event.repaired).toList ++ s.log := by
  obtain ⟨⟨position, rest⟩, table, log⟩ := t
  constructor
  · intro h
    obtain ⟨content?, hl, hrest⟩ := readChars_spelled h
    cases content? with
    | none =>
      unfold readChars at h
      rw [EStateM.bind_of_ok (onCursor_read Cursor.spells_int32 trivial hrest), if_pos rfl] at h
      cases h
    | some payload =>
      rw [contentBytes, List.append_assoc] at hrest
      rw [readChars_payload origin (hl payload rfl) hrest] at h
      cases h
      exact ⟨rfl, payload, hl payload rfl, hrest, rfl, rfl, rfl, rfl⟩
  · rintro ⟨rfl, payload, hl, hrest, rfl, hposition, htable, hlog⟩
    obtain rfl := hposition
    obtain rfl := htable
    obtain rfl := hlog
    exact readChars_payload o hl hrest

/-- Valid text is kept, and a note is made only where there is none. Otherwise each maximal
subpart becomes one U+FFFD, and what is read so needs no further repair. A string in a stream
is read from its own bytes and from no others. -/
theorem readChars_keeps_and_repairs :
    (∀ s bytes, decode (encode s ++ bytes) = s ++ decode bytes) ∧
    (∀ s, decode (encode s) = s ∧ fault? (encode s) = none) ∧
    (∀ bytes, fault? bytes = none ↔ ∃ s, bytes = encode s) ∧
    (∀ bytes cs, Repaired bytes cs ↔ cs = (decode bytes).toList) ∧
    (∀ bytes, decode (encode (decode bytes)) = decode bytes) ∧
    ∀ (origin o : Origin) (s t : Progress) (text : String),
      readChars origin s = .ok (.text o text) t ↔
        o = origin ∧ ∃ payload : List UInt8, payload.length < 2 ^ 31 ∧
          s.cursor.rest = lengthBytes payload.length ++ (payload ++ t.cursor.rest) ∧
          text = decode payload ∧ t.cursor.position = s.cursor.position + 4 + payload.length ∧
          t.table = s.table ∧ t.log = ((fault? payload).map Event.repaired).toList ++ s.log :=
  ⟨decode_encode_append, fun s ↦ ⟨decode_encode s, (fault?_eq_none _).mpr ⟨s, rfl⟩⟩,
    fault?_eq_none, fun bytes _ ↦ by rw [repaired_iff, toList_decode],
    fun bytes ↦ decode_encode (decode bytes), fun _ _ _ _ _ ↦ readChars_eq_text⟩

end Rds.Item
