namespace Rds.Utf8

/-- What a lead byte announces: the bits it gives to the code point, the range of the
byte behind it, and how many further bytes follow. -/
structure Lead where
  bits : Nat
  low : UInt8
  high : UInt8
  more : Nat

/-- The lead bytes of sequences of two to four bytes. Overlong forms, surrogates and
code points above U+10FFFF are shut out by the range of the second byte. -/
def lead? (b : UInt8) : Option Lead :=
  if b < 0xc2 then none
  else if b < 0xe0 then some ⟨b.toNat - 0xc0, 0x80, 0xbf, 0⟩
  else if b = 0xe0 then some ⟨0, 0xa0, 0xbf, 1⟩
  else if b = 0xed then some ⟨0xd, 0x80, 0x9f, 1⟩
  else if b < 0xf0 then some ⟨b.toNat - 0xe0, 0x80, 0xbf, 1⟩
  else if b = 0xf0 then some ⟨0, 0x90, 0xbf, 2⟩
  else if b < 0xf4 then some ⟨b.toNat - 0xf0, 0x80, 0xbf, 2⟩
  else if b = 0xf4 then some ⟨4, 0x80, 0x8f, 2⟩
  else none

/-- A piece of a byte sequence: a character, a maximal subpart that no continuation
can complete, or a sequence that the end of the input cuts off. -/
inductive Piece
  | scalar (c : Char)
  | broken (length : Nat)
  | cut
deriving DecidableEq

def isContinuation (b : UInt8) : Bool := 0x80 ≤ b && b ≤ 0xbf

def continuations (length code : Nat) : Nat → List UInt8 → Piece × List UInt8
  | 0, bytes => (.scalar (Char.ofNat code), bytes)
  | _ + 1, [] => (.cut, [])
  | n + 1, b :: bytes =>
    if isContinuation b then continuations (length + 1) (64 * code + (b.toNat - 0x80)) n bytes
    else (.broken length, b :: bytes)

def first (b : UInt8) (bytes : List UInt8) : Piece × List UInt8 :=
  if b < 0x80 then (.scalar (Char.ofNat b.toNat), bytes)
  else
    match lead? b, bytes with
    | none, bytes => (.broken 1, bytes)
    | some _, [] => (.cut, [])
    | some l, c :: rest =>
      if l.low ≤ c ∧ c ≤ l.high then
        continuations 2 (64 * l.bits + (c.toNat - 0x80)) l.more rest
      else (.broken 1, c :: rest)

theorem continuations_length_le (length code n : Nat) (bytes : List UInt8) :
    (continuations length code n bytes).2.length ≤ bytes.length := by
  induction n generalizing length code bytes with
  | zero => exact Nat.le_refl _
  | succ n ih =>
    cases bytes with
    | nil => exact Nat.le_refl _
    | cons b bytes =>
      rw [continuations]
      split
      · exact Nat.le_succ_of_le (ih _ _ _)
      · exact Nat.le_refl _

theorem first_length_le (b : UInt8) (bytes : List UInt8) :
    (first b bytes).2.length ≤ bytes.length := by
  unfold first
  split
  · exact Nat.le_refl _
  · split
    · exact Nat.le_refl _
    · exact Nat.le_refl _
    · split
      · exact Nat.le_succ_of_le (continuations_length_le _ _ _ _)
      · exact Nat.le_refl _

def piecesFrom (done : List Piece) : List UInt8 → List Piece
  | [] => done.reverse
  | b :: bytes => piecesFrom ((first b bytes).1 :: done) (first b bytes).2
termination_by bytes => bytes.length
decreasing_by exact Nat.lt_succ_of_le (first_length_le b bytes)

def pieces (bytes : List UInt8) : List Piece := piecesFrom [] bytes

namespace Piece

def char : Piece → Char
  | scalar c => c
  | broken _ => '\uFFFD'
  | cut => '\uFFFD'

end Piece

/-- Where a byte sequence stops to be UTF-8, and the length of the subpart that is in
the way. No length means that the input ends too early. -/
structure Fault where
  offset : Nat
  length? : Option Nat
deriving DecidableEq

namespace Fault

def message (f : Fault) : String :=
  match f.length? with
  | some n => s!"invalid utf-8 sequence of {n} bytes from index {f.offset}"
  | none => s!"incomplete utf-8 byte sequence from index {f.offset}"

end Fault

def faultFrom? (offset : Nat) : List Piece → Option Fault
  | [] => none
  | .scalar c :: ps => faultFrom? (offset + c.utf8Size) ps
  | .broken n :: _ => some ⟨offset, some n⟩
  | .cut :: _ => some ⟨offset, none⟩

def fault? (bytes : List UInt8) : Option Fault := faultFrom? 0 (pieces bytes)

/-- The characters of a byte sequence, with one U+FFFD for each faulty piece. -/
def repair (bytes : List UInt8) : List Char := (pieces bytes).map Piece.char

end Rds.Utf8
